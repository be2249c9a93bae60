import Segmented.Proofs.Packed
import Segmented.Proofs.TailStep

/-! Growth of a tree at its end, with the storage it takes: one element, or many copies of one. -/

namespace Segmented

variable {σ α : Type}

/-- The capacities that a row of segments holds. -/
def rowStorage (row : List (Buffer α)) : Multiset Nat := (row.map Buffer.storage).sum

@[simp] theorem rowStorage_nil : rowStorage ([] : List (Buffer α)) = 0 := rfl

@[simp] theorem rowStorage_append (row later : List (Buffer α)) :
    rowStorage (row ++ later) = rowStorage row + rowStorage later := by
  simp [rowStorage]

@[simp] theorem rowStorage_singleton (segment : Buffer α) :
    rowStorage [segment] = segment.storage := by
  simp [rowStorage]

theorem rowStorage_of_outlines {row other : List (Buffer α)}
    (same : other.map Buffer.outline = row.map Buffer.outline) :
    rowStorage other = rowStorage row := by
  have read (segments : List (Buffer α)) : segments.map Buffer.storage =
      (segments.map Buffer.outline).map fun outline =>
        if outline.2 = 0 then 0 else {outline.2} := by
    rw [List.map_map]
    rfl
  rw [rowStorage, rowStorage, read, read, same]

/-- A row of segments that are in use holds the capacity of each. -/
theorem rowStorage_of_filled {capacity : Nat} {row : List (Buffer α)}
    (filled : ∀ segment ∈ row, segment.Filled capacity) :
    rowStorage row = (row.map Buffer.capacity : Multiset Nat) := by
  induction row with
  | nil => rfl
  | cons segment rest ih =>
    have inUse := filled segment (by simp)
    have stored : 0 < segment.capacity := Nat.lt_of_lt_of_le inUse.positive inUse.fits
    have others := ih fun other member => filled other (by simp [member])
    rw [← List.singleton_append, rowStorage_append, rowStorage_singleton, others,
      Buffer.storage_of_pos stored]
    rfl

namespace Tree

variable {level capacity : Nat} {options : Options} {tree : Tree α level}
  {front : List (Buffer α)} {last : Buffer α}

/-- The capacities that the segments of a tree hold. -/
def storage (tree : Tree α level) : Multiset Nat := rowStorage tree.row

theorem storage_of_parts (parts : tree.row = front ++ [last]) :
    tree.storage = rowStorage front + last.storage := by
  rw [storage, parts, rowStorage_append, rowStorage_singleton]

theorem storage_segment (segment : Buffer α) : @storage α 0 segment = segment.storage :=
  rowStorage_singleton segment

theorem Matches.storage {other : Tree α level} (matched : other.Matches tree) :
    other.storage = tree.storage :=
  rowStorage_of_outlines matched.outlines

/-- A packed tree, or one whose last segment has just been opened. -/
structure Open (capacity : Nat) (tree : Tree α level) (front : List (Buffer α))
    (last : Buffer α) : Prop where
  shaped : tree.Shaped
  parts : tree.row = front ++ [last]
  full : ∀ segment ∈ front, segment.Full capacity
  bounded : last.size ≤ capacity
  fits : last.Fits

theorem Packed.opened (packed : tree.Packed capacity front last) : tree.Open capacity front last :=
  ⟨packed.shaped, packed.parts, packed.full, packed.filled.bounded, packed.filled.fits⟩

theorem Open.packed (opened : tree.Open capacity front last) (nonempty : 0 < last.size) :
    tree.Packed capacity front last :=
  ⟨opened.shaped, opened.parts, opened.full, nonempty, opened.bounded, opened.fits⟩

theorem Open.toList_eq (opened : tree.Open capacity front last) :
    tree.toList = front.flatMap Buffer.toList ++ last.toList := by
  simp [toList_eq_row, opened.parts]

theorem packed_segment {segment : Buffer α} (filled : segment.Filled capacity) :
    @Packed α 0 capacity segment [] segment :=
  Shaped.packed trivial rfl (fun _ none => nomatch none) filled

/-- A segment in which nothing is stored yet. -/
theorem open_segment {segment : Buffer α} (vacant : segment.items = #[]) :
    @Open α 0 capacity segment [] segment := by
  have empty : segment.size = 0 := by rw [Buffer.size, vacant, Array.size_empty]
  refine ⟨trivial, rfl, fun _ member => absurd member List.not_mem_nil, ?_, ?_⟩
  · rw [empty]
    exact Nat.zero_le _
  · rw [Buffer.Fits, empty]
    exact Nat.zero_le _

/-- Once the last segment is full, all of them are. -/
theorem Open.full_row (opened : tree.Open capacity front last) (full : last.Full capacity) :
    ∀ segment ∈ tree.row, segment.Full capacity := by
  intro segment member
  rw [opened.parts] at member
  rcases List.mem_append.mp member with inFront | atEnd
  · exact opened.full segment inFront
  · exact List.mem_singleton.mp atEnd ▸ full

/-- The last segment of a packed tree makes way for another. -/
theorem Open.setLast (opened : tree.Open capacity front last) {segment : Buffer α}
    (filled : segment.Filled capacity) :
    (tree.setLast segment).Packed capacity front segment :=
  have ⟨shaped, parts⟩ := opened.shaped.setLast opened.parts segment
  shaped.packed parts opened.full filled

end Tree

namespace Root

/-- No lower tree has room for all the segments. -/
def Tight (root : Root α) : Prop :=
  ∀ lower, root.level = lower + 1 → Tree.leaves lower < root.tree.row.length

/-- The second tree is packed, and holds the elements of the first and then the listed ones. It has
more levels only if it needs them. -/
structure Appended (capacity : Nat) (root : Root α) (xs : List α) (root' : Root α) : Prop where
  packed : ∃ front last, root'.tree.Packed capacity front last
  elements : root'.tree.toList = root.tree.toList ++ xs
  tight : root.Tight → root'.Tight
  climbs : root'.level = root.level ∨ root'.Tight

theorem Appended.trans {capacity : Nat} {root root' root'' : Root α} {xs ys : List α}
    (first : root.Appended capacity xs root') (second : root'.Appended capacity ys root'') :
    root.Appended capacity (xs ++ ys) root'' where
  packed := second.packed
  elements := by rw [second.elements, first.elements, List.append_assoc]
  tight := second.tight ∘ first.tight
  climbs := by
    rcases second.climbs with same | tight
    · exact first.climbs.imp same.trans second.tight
    · exact .inr tight

/-- The last segment takes the elements in. -/
theorem Appended.setLast {level capacity : Nat} {tree : Tree α level} {front : List (Buffer α)}
    {last segment : Buffer α} {xs : List α} (opened : tree.Open capacity front last)
    (filled : segment.Filled capacity) (elements : segment.toList = last.toList ++ xs) :
    Appended capacity { level, tree } xs { level, tree := tree.setLast segment } := by
  have packed := opened.setLast filled
  refine ⟨⟨front, segment, packed⟩, ?_, fun tight lower same => ?_, .inl rfl⟩
  · rw [packed.toList_eq, opened.toList_eq, elements, List.append_assoc]
  · have bound := tight lower same
    rw [opened.parts, List.length_append] at bound
    rwa [packed.parts, List.length_append]

end Root

variable [Allocator σ α] [LawfulAllocator σ α]

open Depot (Ensures)

namespace Root

variable {level : Nat} {options : Options} {tree : Tree α level} {front : List (Buffer α)}
  {last : Buffer α}

/-- A packed tree without room takes a segment behind its last one, if need be on a new level. -/
theorem ensures_join {capacity limit : Nat} (opened : tree.Open capacity front last)
    (full : last.Full capacity) {next : Buffer α} (filled : next.Filled capacity)
    (length : Nat) :
    Ensures (σ := σ) (α := α) limit (tree.storage + next.storage)
      (join length (tree.grow next).1 (tree.grow next).2) (fun root => root.tree.storage)
      (fun root => Appended capacity { level, tree } next.toList root) := by
  have grown := opened.shaped.grow next
  have whole := opened.full_row full
  split at grown
  · obtain ⟨none, shaped', row'⟩ := grown
    rw [none]
    refine Ensures.pure ?_ ⟨⟨_, _, shaped'.packed row' whole filled⟩, ?_, ?_, .inl rfl⟩
    · rw [Tree.storage_of_parts row', Tree.storage]
    · simp [Tree.toList_eq_row, row']
    · intro tight lower same
      have bound := tight lower same
      rw [row', List.length_append]
      exact Nat.lt_add_right _ bound
  · rename_i noRoom
    obtain ⟨same, sibling, opened', shaped', row'⟩ := grown
    rw [same, opened']
    have total : tree.row.length = Tree.leaves level :=
      Nat.le_antisymm opened.shaped.length_le (Nat.not_lt.mp noRoom)
    have complete : ∀ child ∈ #[tree], child.Shaped ∧ child.row.length = Tree.leaves level := by
      intro child member
      obtain rfl : child = tree := by simpa using member
      exact ⟨opened.shaped, total⟩
    have branch : @Tree.Shaped α (level + 1) #[tree, sibling] :=
      ⟨#[tree], sibling, rfl, by simp [fanout], complete, shaped'⟩
    have row'' : @Tree.row α (level + 1) #[tree, sibling] = tree.row ++ [next] := by
      simp [Tree.row_branch, row']
    have regular : Notice.Regular (.grewLevel (level + 2) length) := by
      intro error same
      cases same
    have tight : Tight { level := level + 1, tree := (#[tree, sibling] : Array (Tree α level)) } := by
      intro lower same
      obtain rfl : level = lower := Nat.succ.inj same
      rw [row'', List.length_append, total]
      exact Nat.lt_succ_self _
    refine (Depot.ensures_notify regular _).map fun _ _ =>
      ⟨?_, ⟨_, _, branch.packed row'' whole filled⟩, ?_, fun _ => tight, .inr tight⟩
    · rw [Tree.storage_of_parts row'', Tree.storage]
    · refine (Tree.toList_of_row row'').trans ?_
      rw [List.flatMap_append, ← Tree.toList_eq_row, List.flatMap_singleton]

theorem ensures_openWith (options : Options) (asked : Nat) (x : α) :
    Ensures (σ := σ) options.segmentCapacity 0 (Tree.openWith options asked x) Buffer.storage
      (fun next => next.toList = [x] ∧ next.Filled options.segmentCapacity) := by
  apply (Buffer.ensures_start options asked).bind
  intro next opened
  have empty : next.size = 0 := by rw [Buffer.size, opened.1, Array.size_empty]
  refine (Buffer.ensures_push x ?_ ?_).weaken fun longer done => ⟨rfl, ?_, done.2⟩
  · rw [empty]
    exact options.segmentCapacity_pos
  · rw [Buffer.Fits, empty]
    exact Nat.zero_le _
  · rw [done.1, Buffer.toList, opened.1]
    rfl

theorem ensures_openFilled (options : Options) (x : α) {count : Nat} (some : count ≠ 0) :
    Ensures (σ := σ) options.segmentCapacity 0 (Tree.openFilled options x count) Buffer.storage
      (fun next => next.toList = List.replicate (min count options.segmentCapacity) x ∧
        next.Filled options.segmentCapacity) := by
  have positive := options.segmentCapacity_pos
  apply (Buffer.ensures_start options count).bind
  intro next opened
  have empty : next.size = 0 := by rw [Buffer.size, opened.1, Array.size_empty]
  refine (Buffer.ensures_fill x ?_ (by omega)).weaken fun longer done => ⟨rfl, ?_, done.2⟩
  · rw [empty, Nat.zero_add]
    exact Nat.min_le_right ..
  · rw [done.1, Buffer.toList, opened.1]
    rfl

/-- One element goes behind the last. -/
theorem ensures_push (packed : tree.Packed options.segmentCapacity front last) (length : Nat)
    (x : α) :
    Ensures (σ := σ) options.segmentCapacity tree.storage
      (push options length x { level, tree }) (fun root => root.tree.storage)
      (Appended options.segmentCapacity { level, tree } [x]) := by
  unfold push
  have parts := packed.parts
  cases room : last.isFull options with
  | false =>
    have space := Buffer.isFull_eq_false_iff.mp room
    simp only [packed.shaped.push_of_room parts room, bind_assoc, pure_bind, join]
    rw [Tree.storage_of_parts parts, add_comm]
    refine ((Buffer.ensures_push x space packed.filled.fits).frame (rowStorage front)).map
      fun longer done => ⟨?_, .setLast packed.opened done.2 done.1⟩
    rw [Tree.storage_of_parts (packed.opened.setLast done.2).parts, add_comm]
  | true =>
    have full := Buffer.full_of_isFull room packed.filled.bounded packed.filled.fits
    simp only [packed.shaped.push_of_full parts room, bind_assoc, pure_bind]
    apply ((ensures_openWith options overflowCapacity x).beside tree.storage).bind
    intro next done
    rw [add_comm]
    refine (ensures_join packed.opened full done.2 length).weaken fun root appended => ⟨rfl, ?_⟩
    rwa [done.1] at appended

/-- One round of growth by copies: they fill the last segment or go to a new one. Answers how many
are still missing. -/
def fillRound (options : Options) (length : Nat) (x : α) (count : Nat) :
    Root α → Depot.Step σ (Root α × Nat)
  | { level := _, tree } => do
    let (tree, sibling, missing) ← tree.fill options x count
    let root ← join length tree sibling
    return (root, missing)

omit [LawfulAllocator σ α] in
theorem fill_eq {count : Nat} (more : count ≠ 0) (length : Nat) (x : α) (root : Root α) :
    (fill options length x count root : Depot.Step σ (Root α)) = do
      let (root, missing) ← fillRound options length x count root
      if missing < count then fill options length x missing root
      else do
        Depot.notify (.breach (.capacityExceeded options.segmentCapacity))
        return root := by
  rw [fill, if_neg more]
  simp only [fillRound, bind_assoc, pure_bind]

/-- A round makes progress. -/
theorem ensures_fillRound {count : Nat} (opened : tree.Open options.segmentCapacity front last)
    (more : count ≠ 0) (length : Nat) (x : α) :
    Ensures (σ := σ) options.segmentCapacity tree.storage
      (fillRound options length x count { level, tree }) (fun answer => answer.1.tree.storage)
      (fun answer => answer.2 < count ∧ Appended options.segmentCapacity { level, tree }
        (List.replicate (count - answer.2) x) answer.1) := by
  have parts := opened.parts
  have positive := options.segmentCapacity_pos
  unfold fillRound
  cases room : last.isFull options with
  | false =>
    have space := Buffer.isFull_eq_false_iff.mp room
    simp only [opened.shaped.fill_of_room parts room, bind_assoc, pure_bind, join]
    rw [Tree.storage_of_parts parts, add_comm]
    refine ((Buffer.ensures_fill x (by omega) (by omega)).frame (rowStorage front)).map
      fun longer done => ⟨?_, by omega, ?_⟩
    · rw [Tree.storage_of_parts (opened.setLast done.2).parts, add_comm]
    · rw [Nat.sub_sub_self (Nat.min_le_left ..)]
      exact .setLast opened done.2 done.1
  | true =>
    have full := Buffer.full_of_isFull room opened.bounded opened.fits
    simp only [opened.shaped.fill_of_full parts room x more, bind_assoc, pure_bind]
    apply ((ensures_openFilled options x more).beside tree.storage).bind
    intro next done
    rw [add_comm]
    refine (ensures_join opened full done.2 length).map fun root appended => ⟨rfl, by omega, ?_⟩
    rw [done.1] at appended
    rwa [Nat.sub_sub_self (Nat.min_le_left ..)]

/-- Copies go behind the last element, segment by segment. -/
theorem ensures_fill {count : Nat} (opened : tree.Open options.segmentCapacity front last)
    (nonempty : count = 0 → 0 < last.size) (length : Nat) (x : α) :
    Ensures (σ := σ) options.segmentCapacity tree.storage
      (fill options length x count { level, tree }) (fun root => root.tree.storage)
      (Appended options.segmentCapacity { level, tree } (List.replicate count x)) := by
  induction count using Nat.strongRecOn generalizing level tree front last with
  | ind count ih =>
    by_cases more : count = 0
    · subst more
      rw [fill, if_pos rfl]
      refine Ensures.pure rfl ⟨⟨_, _, opened.packed (nonempty rfl)⟩, ?_, id, .inl rfl⟩
      rw [List.replicate_zero, List.append_nil]
    · rw [fill_eq more]
      apply (ensures_fillRound opened more length x).bind
      rintro ⟨root, missing⟩ ⟨fewer, appended⟩
      obtain ⟨front', last', packed⟩ := appended.packed
      dsimp only at fewer appended ⊢
      rw [if_pos fewer]
      refine (ih missing fewer packed.opened fun _ => packed.filled.positive).weaken
        fun root' appended' => ⟨rfl, ?_⟩
      rw [← Nat.sub_add_cancel (Nat.le_of_lt fewer), ← List.replicate_append_replicate]
      exact appended.trans appended'

end Root

end Segmented
