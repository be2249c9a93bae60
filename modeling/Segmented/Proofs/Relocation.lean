import Segmented.Proofs.Traffic

/-! What appends move. An element moves when the last segment outgrows its storage, and appends pay
for the moves in advance: a segment that may still grow has been paid two moves for each element
that it holds beyond half of its storage. -/

namespace Segmented

variable {σ α : Type}

/-! ### Calls and their releases -/

/-- The capacity of the buffers that go back in a list of calls. -/
def Call.freed : List Call → Nat
  | [] => 0
  | .rent _ _ :: rest => freed rest
  | .release capacity _ _ :: rest => capacity + freed rest

namespace Depot

variable [Allocator σ α]

/-- The calls that a step adds to the record. -/
def added {ρ : Type} (step : Step σ ρ) (depot : Depot σ) : List Call :=
  (step.run depot).2.calls.toList.drop depot.calls.size

omit [Allocator σ α] in
theorem added_eq {ρ : Type} {step : Step σ ρ} {depot : Depot σ} {calls : List Call}
    (record : (step.run depot).2.calls.toList = depot.calls.toList ++ calls) :
    depot.added step = calls := by
  rw [added, record, ← Array.length_toList, List.drop_left]

variable [LawfulAllocator σ α]

theorem Records.added {ρ : Type} {step : Step σ ρ} {post : List Call → ρ → Prop}
    (records : Records step post) {depot : Depot σ}
    (sound : LawfulAllocator.Sound depot.allocator) : post (depot.added step) (step.run depot).1 := by
  obtain ⟨-, calls, record, holds⟩ := records depot sound
  rwa [added_eq (by rw [record, Array.toList_append])]

theorem Extends.added {ρ : Type} {limit : Nat} {before after : Multiset Nat} {step : Step σ ρ}
    {depot : Depot σ} (extended : Extends limit before after depot (step.run depot).2) :
    ∀ call ∈ depot.added step, call.Within limit := by
  obtain ⟨calls, record, within, -⟩ := extended.calls
  rwa [added_eq record]

end Depot

open Depot (Records)

/-! ### The last segment -/

/-- What an append does to the size and the storage of the last segment, and how many elements it
moves. -/
inductive Buffer.Grows (limit : Nat) : Option (Nat × Nat) → Nat → Nat × Nat → Prop
  /-- There is no segment yet, or the last one is full, and another is opened. -/
  | opened {before : Option (Nat × Nat)} {got : Nat} : Grows limit before 0 (1, got)
  /-- The last segment has storage to spare. -/
  | spare {size capacity : Nat} : Grows limit (some (size, capacity)) 0 (size + 1, capacity)
  /-- The last segment has filled its storage, and moves to twice as much. -/
  | doubled {size got : Nat} (room : size < limit) (enough : min (2 * size) limit ≤ got) :
      Grows limit (some (size, size)) size (size + 1, got)

/-- What a removal at the end does to the size and the storage of the last segment. -/
inductive Buffer.Recedes (limit : Nat) : Option (Nat × Nat) → Option (Nat × Nat) → Prop
  /-- The segment keeps its storage. -/
  | kept {size capacity : Nat} : Recedes limit (some (size + 1, capacity)) (some (size, capacity))
  /-- No segment is left. -/
  | emptied {before : Option (Nat × Nat)} : Recedes limit before none
  /-- The segment goes, and the one in front of it is full. -/
  | dropped {before : Option (Nat × Nat)} {capacity : Nat} (full : limit ≤ capacity) :
      Recedes limit before (some (limit, capacity))

/-- Two moves are paid for by each append, and those of a segment that may still grow are paid in
advance. -/
structure Buffer.Paid (limit pushes moved : Nat) (last : Option (Nat × Nat)) : Prop where
  total : moved ≤ 2 * pushes
  ahead : ∀ size capacity, last = some (size, capacity) → capacity < limit →
    moved + 2 * size ≤ 2 * pushes + capacity

namespace Buffer

variable {limit pushes moved : Nat} {last : Option (Nat × Nat)}

theorem Paid.grows (paid : Paid limit pushes moved last) {cost : Nat} {last' : Nat × Nat}
    (grows : Grows limit last cost last') :
    Paid limit (pushes + 1) (moved + cost) (some last') := by
  obtain ⟨total, ahead⟩ := paid
  cases grows with
  | opened =>
    refine ⟨by omega, fun size capacity same small => ?_⟩
    cases same
    omega
  | spare =>
    refine ⟨by omega, fun size capacity same small => ?_⟩
    cases same
    have before := ahead _ _ rfl small
    omega
  | doubled room enough =>
    -- Full storage: as many moves are paid in advance as there are elements to move.
    have before := ahead _ _ rfl room
    refine ⟨by omega, fun size capacity same small => ?_⟩
    cases same
    omega

theorem Paid.recedes (paid : Paid limit pushes moved last) {last' : Option (Nat × Nat)}
    (recedes : Recedes limit last last') : Paid limit pushes moved last' := by
  refine ⟨paid.total, fun size capacity same small => ?_⟩
  cases recedes with
  | kept =>
    cases same
    have before := paid.ahead _ _ rfl small
    omega
  | emptied => cases same
  | dropped full =>
    cases same
    omega

variable [Allocator σ α]

theorem pop_eq_without {buffer : Buffer α} (options : Options) (some : 0 < buffer.size) :
    (buffer.pop options : Depot.Step σ _) = do
      let settled ← (buffer.without (buffer.size - 1)).settle options
      return (buffer.items.back?, settled) := by
  obtain ⟨items, capacity⟩ := buffer
  obtain ⟨kept, x, rfl⟩ := Array.eq_push_of_size_ne_zero (Nat.ne_of_gt some)
  have shorter : (kept.push x).eraseIdxIfInBounds kept.size = kept := by
    apply Array.ext'
    simp [Array.eraseIdxIfInBounds, Array.toList_eraseIdx, List.eraseIdx_append_of_length_le]
  simp [pop, without, size, shorter]

end Buffer

/-! ### Sequences -/

namespace Sequence

open Segmented.Tree (Lengthens Shortens)

variable {s : Sequence α}

/-- The size and the storage of the last segment. -/
def lastOutline (s : Sequence α) : Option (Nat × Nat) :=
  s.segments.toList.getLast?.map Buffer.outline

/-- What is to be moved before another element is appended: the elements of the last segment, if
they fill its storage and it may hold more. -/
def outgrown (s : Sequence α) : Nat :=
  match s.lastOutline with
  | none => 0
  | some (size, capacity) =>
    if size = capacity ∧ capacity < s.options.segmentCapacity then size else 0

theorem lastOutline_of_parts {front : List (Buffer α)} {last : Buffer α}
    (parts : s.segments.toList = front ++ [last]) : s.lastOutline = some last.outline := by
  rw [lastOutline, parts, List.getLast?_concat, Option.map_some]

theorem lastOutline_of_nil (none : s.segments.toList = []) : s.lastOutline = Option.none := by
  rw [lastOutline, none, List.getLast?_nil, Option.map_none]

theorem Valid.size_of_parts (valid : s.Valid) {front : List (Buffer α)} {last : Buffer α}
    (parts : s.segments.toList = front ++ [last]) :
    s.length = front.length * s.options.segmentCapacity + last.size ∧
      last.Filled s.options.segmentCapacity := by
  cases valid with
  | empty root => simp [segments, root] at parts
  | tree root packed total =>
    rw [segments_eq_row root, packed.parts] at parts
    obtain ⟨rfl, same⟩ := List.append_inj' parts rfl
    cases same
    exact ⟨total.trans packed.length_eq, packed.filled⟩

theorem Valid.length_of_nil (valid : s.Valid) (none : s.segments.toList = []) : s.length = 0 := by
  cases valid with
  | empty root zero => exact zero
  | tree root packed =>
    rw [segments_eq_row root, packed.parts] at none
    simp at none

/-- The last segment, where the capacities of all are known. -/
theorem Valid.lastOutline_of_lent (valid : s.Valid) {capacities : List Nat} {capacity : Nat}
    (lent : s.lent = capacities ++ [capacity]) :
    ∃ size, s.lastOutline = some (size, capacity) ∧ size ≤ capacity ∧
      s.length = capacities.length * s.options.segmentCapacity + size := by
  obtain ⟨front, back, parts, rfl, single⟩ := List.map_eq_append_iff.mp lent
  obtain ⟨last, rfl, rfl⟩ := List.map_eq_singleton_iff.mp single
  obtain ⟨length, filled⟩ := valid.size_of_parts parts
  rw [List.length_map]
  exact ⟨last.size, lastOutline_of_parts parts, filled.fits, length⟩

variable [Allocator σ α] [LawfulAllocator σ α]

/-- A removal at the end calls only to give back the last segment, which it has emptied. -/
theorem records_pop (valid : s.Valid) (some : s.length ≠ 0) :
    Records (s.pop : Depot.Step σ (Option α × Sequence α)) fun calls answer =>
      Shortens s.options s.segments.toList calls answer.2.lent := by
  unfold pop popDeep
  rw [if_neg some]
  cases valid with
  | empty root zero => exact absurd zero some
  | tree root packed total tail =>
    rename_i level tree front last
    have positive := packed.filled.positive
    rw [segments_eq_row root, packed.parts]
    simp only [Valid.tailSegment?_eq root packed tail, Option.any_some]
    split
    · rename_i another
      have another : 1 < last.size := by simpa using another
      simp only [updateTail_eq root packed tail, pure_bind]
      apply Records.pure
      have lent' : ((front ++ [last]).map Buffer.capacity) =
          (tree.setLast last.popKeeping.2).lent := by
        rw [Tree.lent_of_parts (packed.shaped.setLast packed.parts _).2, List.map_append]
        rfl
      rw [lent_of_root rfl, ← lent']
      exact .kept another
    · have inside : last.size - 1 < last.size := Nat.sub_one_lt_of_lt positive
      obtain ⟨x, here⟩ : ∃ x, last.items.back? = Option.some x :=
        ⟨_, Array.back?_eq_getElem?.trans (Array.getElem?_eq_getElem inside)⟩
      simp only [detach, root, packed.shaped.pop_eq packed.parts,
        Buffer.pop_eq_without s.options positive, here, bind_assoc, pure_bind]
      exact records_shorten packed total (.refl packed.shaped) packed.parts inside _

/-- An append moves the elements of the last segment if they have filled its storage, and no
others. -/
theorem Valid.grows_push (valid : s.Valid) (x : α) {depot : Depot σ}
    (sound : LawfulAllocator.Sound depot.allocator) :
    ∃ last', ((s.push x).run depot).1.lastOutline = some last' ∧
      Buffer.Grows s.options.segmentCapacity s.lastOutline
        (Call.freed (depot.added (s.push x))) last' ∧
      Call.freed (depot.added (s.push x)) = s.outgrown := by
  obtain ⟨extended, follows⟩ := ensures_push valid x depot sound
  have lengthens := (records_push valid x).added sound
  have within := extended.added
  have valid' := follows.valid
  have longer : ((s.push x).run depot).1.length = s.length + 1 := by
    rw [valid'.length_eq, follows.elements, List.length_append, ← valid.length_eq]
    rfl
  have options := follows.options
  generalize depot.added (s.push x) = calls at lengthens within ⊢
  generalize ((s.push x).run depot).1 = s' at lengthens valid' longer options ⊢
  generalize parts : s.segments.toList = row at lengthens
  generalize lent : s'.lent = capacities at lengthens
  cases lengthens with
  | first positive most enough =>
    have only : s'.lent = [] ++ [_] := lent
    obtain ⟨size, outline, -, length⟩ := valid'.lastOutline_of_lent only
    have single : size = 1 := by
      rw [longer, valid.length_of_nil parts, List.length_nil, Nat.zero_mul] at length
      omega
    refine ⟨_, outline, ?_, by rw [outgrown, lastOutline_of_nil parts]; rfl⟩
    rw [single]
    exact .opened
  | taken room regrows =>
    rename_i front last capacity
    obtain ⟨size, outline, -, length⟩ := valid'.lastOutline_of_lent lent
    obtain ⟨total, filled⟩ := valid.size_of_parts parts
    have one : size = last.size + 1 := by
      rw [longer, total, List.length_map, options] at length
      omega
    subst one
    have before := lastOutline_of_parts parts
    cases regrows with
    | spare spare =>
      refine ⟨_, outline, before ▸ .spare, ?_⟩
      simp only [outgrown, before, Buffer.outline, Nat.ne_of_lt spare, false_and, if_false]
      rfl
    | doubled taken larger =>
      obtain ⟨-, -, enough⟩ := within _ List.mem_cons_self
      rw [Buffer.outline, ← taken] at before
      rw [← taken] at enough ⊢
      refine ⟨_, outline, before ▸ .doubled room enough, ?_⟩
      simp only [outgrown, before, room, and_self, if_true]
      rfl
  | opened full enough =>
    rename_i front last got
    obtain ⟨size, outline, -, length⟩ := valid'.lastOutline_of_lent lent
    obtain ⟨total, filled⟩ := valid.size_of_parts parts
    have one : size = 1 := by
      rw [longer, total, List.length_map, options, List.length_append, List.length_singleton,
        Nat.succ_mul] at length
      omega
    have before := lastOutline_of_parts parts
    subst one
    refine ⟨_, outline, .opened, ?_⟩
    have fits : last.size ≤ last.capacity := filled.fits
    simp only [outgrown, before, Buffer.outline]
    rw [if_neg (by omega)]
    rfl

theorem Valid.recedes_pop (valid : s.Valid) {depot : Depot σ}
    (sound : LawfulAllocator.Sound depot.allocator) :
    Buffer.Recedes s.options.segmentCapacity s.lastOutline (s.pop.run depot).1.2.lastOutline := by
  by_cases some : s.length = 0
  · have same : (s.pop : Depot.Step σ _) = pure (none, s) := if_pos some
    have none : s.segments.toList = [] := by
      rw [segments, valid.length_eq_zero_iff.mp some]
    change Buffer.Recedes _ _ (((s.pop : Depot.Step σ _).run depot).1.2).lastOutline
    rw [same]
    exact lastOutline_of_nil none ▸ .emptied
  obtain ⟨extended, -, follows⟩ := ensures_pop valid depot sound
  have shortens := (records_pop valid some).added sound
  have valid' := follows.valid
  have shorter : (s.pop.run depot).1.2.length = s.length - 1 := by
    rw [valid'.length_eq, follows.elements, List.length_dropLast, ← valid.length_eq]
  have options := follows.options
  generalize depot.added s.pop = calls at shortens
  generalize (s.pop.run depot).1.2 = s' at shortens valid' shorter options ⊢
  generalize parts : s.segments.toList = row at shortens
  generalize lent : s'.lent = capacities at shortens
  cases shortens with
  | kept another =>
    rename_i front last
    rw [List.map_append, List.map_singleton] at lent
    obtain ⟨size, outline, -, length⟩ := valid'.lastOutline_of_lent lent
    obtain ⟨total, filled⟩ := valid.size_of_parts parts
    have before := lastOutline_of_parts parts
    have one : last.size = size + 1 := by
      rw [shorter, total, List.length_map, options] at length
      omega
    rw [before, outline, Buffer.outline, one]
    exact .kept
  | dropped single =>
    rename_i front last
    obtain ⟨total, filled⟩ := valid.size_of_parts parts
    rcases List.eq_nil_or_concat front with rfl | ⟨others, next, rfl⟩
    · have none : s'.segments.toList = [] := List.map_eq_nil_iff.mp lent
      rw [lastOutline_of_nil none]
      exact .emptied
    · rw [List.concat_eq_append, List.map_append, List.map_singleton] at lent
      obtain ⟨size, outline, fits, length⟩ := valid'.lastOutline_of_lent lent
      have whole : size = s.options.segmentCapacity := by
        rw [shorter, total, List.length_map, options, List.concat_eq_append, List.length_append,
          List.length_singleton, Nat.succ_mul] at length
        omega
      rw [outline, whole]
      exact .dropped (whole ▸ fits)

/-- A sequence that was empty once and is the work of appends and removals at the end since then, in
any order, each on a depot that others may have used in between: how many appends there were, and
how many elements they have moved. -/
inductive Swings (σ : Type) [Allocator σ α] [LawfulAllocator σ α] (hint : Nat)
    (options : Options) : Nat → Nat → Sequence α → Prop
  | empty : Swings σ hint options 0 0 (withCapacity hint options)
  | push {pushes moved : Nat} {s : Sequence α} (x : α) (depot : Depot σ)
      (sound : LawfulAllocator.Sound depot.allocator)
      (earlier : Swings σ hint options pushes moved s) :
      Swings σ hint options (pushes + 1) (moved + Call.freed (depot.added (s.push x)))
        ((s.push x).run depot).1
  | pop {pushes moved : Nat} {s : Sequence α} (depot : Depot σ)
      (sound : LawfulAllocator.Sound depot.allocator)
      (earlier : Swings σ hint options pushes moved s) :
      Swings σ hint options pushes moved (s.pop.run depot).1.2

variable {hint pushes moved : Nat} {options : Options}

theorem Swings.paid (swings : Swings σ hint options pushes moved s) :
    s.Valid ∧ s.options = options ∧
      Buffer.Paid options.segmentCapacity pushes moved s.lastOutline := by
  induction swings with
  | empty => exact ⟨valid_empty options _, rfl, Nat.le_refl 0, fun _ _ none => nomatch none⟩
  | push x depot sound _ ih =>
    obtain ⟨valid, rfl, paid⟩ := ih
    obtain ⟨-, follows⟩ := ensures_push valid x depot sound
    obtain ⟨last', outline, grows, -⟩ := valid.grows_push x sound
    exact ⟨follows.valid, follows.options, outline ▸ paid.grows grows⟩
  | pop depot sound _ ih =>
    obtain ⟨valid, rfl, paid⟩ := ih
    obtain ⟨-, -, follows⟩ := ensures_pop valid depot sound
    exact ⟨follows.valid, follows.options, paid.recedes (valid.recedes_pop sound)⟩

/-- However appends and removals at the end take turns, appends move no more than two elements each
in the long run: those of a segment that has outgrown its storage, and of no other. -/
theorem Swings.moved_le (swings : Swings σ hint options pushes moved s) :
    moved ≤ 2 * pushes ∧
      ∀ (x : α) (depot : Depot σ), LawfulAllocator.Sound depot.allocator →
        Call.freed (depot.added (s.push x)) = s.outgrown := by
  obtain ⟨valid, -, paid⟩ := swings.paid
  refine ⟨paid.total, fun x depot sound => ?_⟩
  obtain ⟨-, -, -, moves⟩ := valid.grows_push x sound
  exact moves

/-- The third of three appends finds a segment for two filled, and moves both. -/
theorem moved_le_of_three :
    let depot : Depot (Heap Nat) := { allocator := ⟨⟩ }
    let s : Sequence Nat := onHeap [.push 7, .push 8]
    Swings (Heap Nat) 0 { segmentCapacity := 16 } 3 2 ((s.push 9).run depot).1 ∧ 2 ≤ 2 * 3 ∧
      Call.freed (depot.added (s.push 9)) = 2 := by
  intro depot s
  have one : Swings (Heap Nat) 0 { segmentCapacity := 16 } 1 0 (onHeap [.push 7]) :=
    .push 7 depot trivial .empty
  have two : Swings (Heap Nat) 0 { segmentCapacity := 16 } 2 0 s := .push 8 depot trivial one
  have three : Swings (Heap Nat) 0 { segmentCapacity := 16 } 3 2 ((s.push 9).run depot).1 :=
    .push 9 depot trivial two
  have outgrown : s.outgrown = 2 := by decide +kernel
  exact ⟨three, three.moved_le.1, (two.moved_le.2 9 depot trivial).trans outgrown⟩

end Sequence

end Segmented
