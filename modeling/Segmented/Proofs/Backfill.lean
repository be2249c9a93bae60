import Segmented.Proofs.Overflow

/-! A removal from a tree, as it is seen from outside: what comes in at the end keeps a full tree
full, and without it the last segment gives an element up and goes with its last one. On the way no
segment is emptied that takes another element in. -/

namespace Segmented

variable {σ α : Type}

/-- A segment with another element gives one up without the depot. -/
theorem Buffer.removeAt_of_another [Allocator σ α] {options : Options} {segment : Buffer α}
    {index : Nat} (inside : index < segment.size) (another : 1 < segment.size) :
    (segment.removeAt options index : Depot.Step σ (Option α × Buffer α)) =
      pure (some segment.items[index], segment.without index) := by
  have left : 0 < (segment.without index).size := by
    rw [size_without inside]
    exact Nat.sub_pos_of_lt another
  have settled : ((segment.without index).settle options : Depot.Step σ _) =
      pure (segment.without index) := settle_of_nonempty left
  rw [removeAt_of_lt inside]
  exact congrArg (· >>= fun settled => pure (some segment.items[index], settled)) settled

namespace Checked

variable {ρ τ : Type}

theorem lift_pure (answer : ρ) : (lift (pure answer) : Checked σ ρ) = pure answer := rfl

variable [Allocator σ α] [LawfulAllocator σ α]

/-- On a sound depot the watched step never stops and ends as the plain one does, which leaves the
depot sound. -/
structure Steady (watched : Checked σ ρ) (plain : Depot.Step σ ρ) : Prop where
  agrees : Agrees watched plain
  keeps : Depot.Keeps plain fun _ => True

namespace Steady

variable {watched : Checked σ ρ} {plain : Depot.Step σ ρ}

theorem pure (answer : ρ) : Steady (Pure.pure answer : Checked σ ρ) (Pure.pure answer) :=
  ⟨agrees_pure answer, .pure trivial⟩

theorem lift (keeps : Depot.Keeps plain fun _ => True) : Steady (lift plain) plain :=
  ⟨agrees_lift plain, keeps⟩

theorem bind {next : ρ → Checked σ τ} {later : ρ → Depot.Step σ τ} (first : Steady watched plain)
    (second : ∀ answer, Steady (next answer) (later answer)) :
    Steady (watched >>= next) (plain >>= later) :=
  ⟨first.agrees.bind first.keeps fun answer _ => (second answer).agrees,
    first.keeps.bind fun answer _ => (second answer).keeps⟩

end Steady

end Checked

namespace Tree

open Checked (Steady)
open Depot (Keeps)

variable {level : Nat} {options : Options} {tree other : Tree α level}
  {front front' : List (Buffer α)} {last : Buffer α} {index index' : Nat} {incoming : Option α}

/-! ### What is left -/

/-- The number of segments with an element in them. -/
def occupied (tree : Tree α level) : Nat := tree.row.countP fun segment => !segment.isEmpty

/-- Nothing below the root is empty, neither a segment nor a branch. -/
def Pruned : {level : Nat} → Tree α level → Prop
  | 0, _ => True
  | _ + 1, (children : Array (Tree α _)) =>
    ∀ child ∈ children.toList, child.isEmpty = false ∧ child.Pruned

theorem WellFormed.isEmpty_eq_false {shift : Nat} (wellFormed : tree.WellFormed shift) :
    tree.isEmpty = false := by
  cases level with
  | zero => exact Buffer.isEmpty_eq_false_iff.mpr wellFormed.1
  | succ level =>
    change Array (Tree α level) at tree
    have some : 0 < tree.size := wellFormed.1
    rw [isEmpty_branch, Array.isEmpty_eq_false_iff]
    exact Array.size_pos_iff.mp some

theorem WellFormed.pruned {shift : Nat} (wellFormed : tree.WellFormed shift) : tree.Pruned := by
  induction level with
  | zero => trivial
  | succ level ih =>
    obtain ⟨-, -, -, each⟩ := wellFormed
    intro child member
    exact ⟨(each child member).isEmpty_eq_false, ih (each child member)⟩

theorem Packed.occupied_eq (packed : tree.Packed options.segmentCapacity front last) :
    tree.occupied = tree.row.length := by
  rw [occupied, List.countP_eq_length]
  intro segment member
  rw [Buffer.isEmpty_eq_false_iff.mpr (packed.filled_row segment member).positive]
  rfl

theorem isEmpty_of_mem_row (vacant : tree.isEmpty = true) :
    ∀ segment ∈ tree.row, segment.isEmpty = true := by
  cases level with
  | zero =>
    intro segment member
    rw [List.mem_singleton.mp member]
    exact vacant
  | succ level =>
    change Array (Tree α level) at tree
    obtain rfl := Array.isEmpty_iff.mp vacant
    simp [row_branch]

theorem pruned_of_isEmpty (vacant : tree.isEmpty = true) : tree.Pruned := by
  cases level with
  | zero => trivial
  | succ level =>
    change Array (Tree α level) at tree
    obtain rfl := Array.isEmpty_iff.mp vacant
    simp [Pruned]

theorem occupied_of_isEmpty (vacant : tree.isEmpty = true) : tree.occupied = 0 := by
  rw [occupied, List.countP_eq_zero]
  intro segment member
  simp [isEmpty_of_mem_row vacant segment member]

theorem toList_of_isEmpty (vacant : tree.isEmpty = true) : tree.toList = [] := by
  rw [toList_eq_row, List.flatMap_eq_nil_iff]
  intro segment member
  have none := isEmpty_of_mem_row vacant segment member
  rw [Buffer.toList, Buffer.isEmpty_iff.mp none]

/-- What a removal at `index` that takes `incoming` in takes out of a tree, and what it leaves. -/
structure Backfilled (options : Options) (incoming : Option α) (tree : Tree α level) {index : Nat}
    (inside : index < tree.toList.length) (removed : Option α) (tree' : Tree α level) : Prop where
  element : removed = some tree.toList[index]
  elements : tree'.toList = tree.toList.eraseIdx index ++ incoming.toList
  refilled : incoming.isSome → tree'.WellFormed options.segmentCapacity.log2 ∧
    tree'.toList.length = span options.segmentCapacity level ∧
      tree'.segmentCount = tree.segmentCount
  remains : incoming = none → if tree.toList.length = 1 then tree'.isEmpty = true
    else tree'.WellFormed options.segmentCapacity.log2
  pruned : tree'.Pruned
  occupied : tree'.occupied + (if tree.lastSize = 1 then 1 else 0) = tree.occupied

theorem Backfilled.of_none {tree' : Tree α level} (inside : index < tree.toList.length)
    (elements : tree'.toList = tree.toList.eraseIdx index)
    (remains : if tree.toList.length = 1 then tree'.isEmpty = true
      else tree'.WellFormed options.segmentCapacity.log2)
    (pruned : tree'.Pruned)
    (occupied : tree'.occupied + (if tree.lastSize = 1 then 1 else 0) = tree.occupied) :
    Backfilled options none tree inside (some tree.toList[index]) tree' where
  element := rfl
  elements := elements.trans (List.append_nil _).symm
  refilled some := by cases some
  remains _ := remains
  pruned := pruned
  occupied := occupied

/-- The last segment holds another element than the one it gives up. -/
theorem Packed.backfilled_of_another (packed : tree.Packed options.segmentCapacity front last)
    (inside : index < tree.toList.length) (matched : other.Matches tree)
    (parts : other.row = front' ++ [last]) (within : index' < last.size)
    (contents : front'.flatMap Buffer.toList ++ last.toList.eraseIdx index' =
      tree.toList.eraseIdx index) (another : 1 < last.size) :
    Backfilled options none tree inside (some tree.toList[index])
      (other.trimLast (last.without index')) := by
  have shorter := Buffer.size_without within
  have bounded := packed.filled.bounded
  have fits : last.size ≤ last.capacity := packed.filled.fits
  have left : (last.without index').Filled options.segmentCapacity :=
    ⟨by omega, by omega, show (last.without index').size ≤ last.capacity by omega⟩
  have same := (matched.shaped.trimLast_of_nonempty
    (Buffer.isEmpty_eq_false_iff.mpr left.positive)).1
  have packed' := (packed.of_parts matched parts).opened.setLast left
  have total := packed.length_eq
  rw [same]
  apply Backfilled.of_none
  · rw [packed'.toList_eq, Buffer.toList_without within, contents]
  · rw [if_neg (by omega)]
    exact packed'.wellFormed_log2
  · exact packed'.wellFormed_log2.pruned
  · rw [lastSize_of_parts packed.parts, if_neg (Nat.ne_of_gt another), Nat.add_zero,
      packed.occupied_eq, packed'.occupied_eq, packed'.parts, ← matched.length_row, parts,
      List.length_append, List.length_append]
    rfl

/-- The only segment goes with its only element. -/
theorem Packed.backfilled_of_only (packed : tree.Packed options.segmentCapacity front last)
    (inside : index < tree.toList.length) (matched : other.Matches tree)
    (parts : other.row = [last]) (single : last.size = 1) :
    Backfilled options none tree inside (some tree.toList[index])
      (other.trimLast ({} : Buffer α)) := by
  have empty : ({} : Buffer α).isEmpty = true := rfl
  have vacant : (other.trimLast ({} : Buffer α)).isEmpty = true :=
    (matched.shaped.trimLast_of_empty (parts.trans (List.nil_append _).symm) empty).1
  have total : tree.toList.length = 1 := by
    rw [← matched.length_toList, toList_of_row parts, List.flatMap_singleton,
      Buffer.length_toList, single]
  apply Backfilled.of_none
  · symm
    rw [toList_of_isEmpty vacant]
    apply List.eq_nil_of_length_eq_zero
    rw [List.length_eraseIdx_of_lt inside, total]
  · rw [if_pos total]
    exact vacant
  · exact pruned_of_isEmpty vacant
  · rw [occupied_of_isEmpty vacant, lastSize_of_parts packed.parts, if_pos single,
      packed.occupied_eq, ← matched.length_row, parts]
    rfl

/-- The last segment goes with its only element, and with it the branches that led to no other. -/
theorem Packed.backfilled_of_single (packed : tree.Packed options.segmentCapacity front last)
    (inside : index < tree.toList.length) (matched : other.Matches tree)
    (parts : other.row = front' ++ [last]) (others : front' ≠ [])
    (contents : front'.flatMap Buffer.toList = tree.toList.eraseIdx index)
    (single : last.size = 1) :
    Backfilled options none tree inside (some tree.toList[index])
      (other.trimLast ({} : Buffer α)) := by
  have packed' := packed.of_parts matched parts
  have empty : ({} : Buffer α).isEmpty = true := rfl
  obtain ⟨-, row'⟩ := (matched.shaped.trimLast_of_empty parts empty).2 others
  have some : 0 < front'.length * options.segmentCapacity :=
    Nat.mul_pos (List.length_pos_iff.mpr others) options.segmentCapacity_pos
  have more : front'.flatMap Buffer.toList ≠ [] :=
    List.ne_nil_of_length_pos (some.trans_eq packed'.length_front.symm)
  obtain ⟨elements, _, _, packed''⟩ :=
    (packed'.opened.trimLast_of_empty options.segmentCapacity_pos).2 more
  apply Backfilled.of_none
  · exact elements.trans contents
  · have total := packed'.length_eq
    rw [matched.length_toList] at total
    rw [if_neg (by omega)]
    exact packed''.wellFormed_log2
  · exact packed''.wellFormed_log2.pruned
  · rw [packed''.occupied_eq, row', lastSize_of_parts packed.parts, if_pos single,
      packed.occupied_eq, ← matched.length_row, parts, List.length_append,
      List.length_singleton]

/-! ### Watched removals -/

variable [Allocator σ α]

/-- Pulls the first elements of a row of trees across, as `pullAcross` does. -/
def watchedPull {level : Nat}
    (remove : Nat → Option α → Tree α level → Checked σ (Option α × Tree α level)) :
    List (Tree α level) → Option α → List (Tree α level) →
      Checked σ (Option α × List (Tree α level))
  | [], carry, later => return (carry, later)
  | tree :: before, carry, later => do
    let (first, tree) ← remove 0 carry tree
    watchedPull remove before first (keep tree later)

/-- Removes as `removeAt` does, but stops where a segment that the removal has emptied is to take an
element in. -/
def watchedRemoveAt (options : Options) :
    {level : Nat} → Nat → Option α → Tree α level → Checked σ (Option α × Tree α level)
  | 0, index, incoming, (buffer : Buffer α) => do
    let (removed, buffer) ← Checked.lift (buffer.removeAt options index)
    match incoming with
    | none => return (removed, buffer)
    | some x =>
      if buffer.isEmpty then throw (.breach .empty)
      else
        let buffer ← Checked.lift (buffer.push options x)
        return (removed, buffer)
  | level + 1, index, incoming, (children : Array (Tree α level)) => do
    let width := span options.segmentCapacity level
    match splitFrom children (index / width) with
    | (before, []) =>
      Checked.lift (Depot.notify (.breach (.indexOutOfRange (index / width) before.size)))
      return (none, before)
    | (before, child :: later) =>
      let (carry, later) ← watchedPull
        (fun index incoming child => watchedRemoveAt options index incoming child)
        later.reverse incoming []
      let (removed, child) ← watchedRemoveAt options (index % width) carry child
      return (removed, before ++ keep child later)

variable [LawfulAllocator σ α]

/-- A segment that takes an element in holds more than the one that leaves it. -/
theorem steady_segment {segment : Buffer α} (filled : segment.Filled options.segmentCapacity)
    (inside : index < segment.size) (another : incoming.isSome → 1 < segment.size) :
    Steady (σ := σ) (@watchedRemoveAt σ α _ options 0 index incoming segment)
      (@Tree.removeAt σ α _ options 0 index incoming segment) := by
  have fits : segment.size ≤ segment.capacity := filled.fits
  have bounded := filled.bounded
  have shorter := Buffer.size_without inside
  cases incoming with
  | none =>
    apply (Steady.lift ?_).bind
    · rintro ⟨removed, settled⟩
      exact .pure _
    · rw [Buffer.removeAt_of_lt inside]
      exact (Buffer.ensures_settle options _).keeps.map fun _ _ => trivial
  | some x =>
    have more := another rfl
    have occupied : (segment.without index).isEmpty = false :=
      Buffer.isEmpty_eq_false_iff.mpr (by omega)
    have pushed := Buffer.ensures_push (σ := σ) x
      (show (segment.without index).size < options.segmentCapacity by omega)
      (show (segment.without index).size ≤ segment.capacity by omega)
    simp only [watchedRemoveAt, Tree.removeAt, Buffer.removeAt_of_another inside more,
      Checked.lift_pure, pure_bind, occupied, Bool.false_eq_true, if_false]
    exact (Steady.lift (pushed.weaken fun _ _ => ⟨rfl, trivial⟩).keeps).bind fun _ => .pure _

theorem steady_pull {trees : List (Tree α level)}
    (first : ∀ tree ∈ trees.head?, Steady (σ := σ) (tree.watchedRemoveAt options 0 incoming)
      (tree.removeAt options 0 incoming))
    (rest : ∀ tree ∈ trees.tail, ∀ incoming, Steady (σ := σ)
      (tree.watchedRemoveAt options 0 incoming) (tree.removeAt options 0 incoming))
    (later : List (Tree α level)) :
    Steady (σ := σ)
      (watchedPull (fun index incoming child => watchedRemoveAt options index incoming child) trees
        incoming later)
      (pullAcross (fun index incoming child => removeAt options index incoming child) trees
        incoming later) := by
  induction trees generalizing incoming later with
  | nil => exact .pure _
  | cons tree behind ih =>
    apply (first tree rfl).bind
    rintro ⟨pulled, tree'⟩
    apply ih
    · intro next head
      exact rest next (List.mem_of_mem_head? head) pulled
    · intro next member
      exact rest next (List.mem_of_mem_tail member)

/-- No segment that a removal empties takes an element in: what comes in comes to a full one. -/
theorem Packed.steady (packed : tree.Packed options.segmentCapacity front last)
    (inside : index < tree.toList.length)
    (whole : incoming.isSome → tree.Complete options.segmentCapacity) :
    Steady (σ := σ) (tree.watchedRemoveAt options index incoming)
      (tree.removeAt options index incoming) := by
  have positive := options.segmentCapacity_pos
  induction level generalizing front last index incoming with
  | zero =>
    obtain ⟨-, rfl⟩ := eq_of_row_segment packed.parts
    apply steady_segment packed.filled (last.length_toList ▸ inside)
    intro some
    have full := (whole some).full last (List.mem_singleton.mpr rfl)
    rw [full.size]
    exact Nat.lt_of_lt_of_le (by decide) options.supported.1
  | succ level ih =>
    obtain ⟨before, child, rfl, -⟩ := packed.shaped
    obtain ⟨inner, innerPacked, -, -, complete⟩ := packed.exists_inner
    obtain ⟨earlier, later, offset, path⟩ := packed.exists_path inside
    have atEnd {index : Nat} (inside : index < child.toList.length) :
        Steady (σ := σ) (child.watchedRemoveAt options index incoming)
          (child.removeAt options index incoming) := by
      apply ih innerPacked inside
      intro some
      exact (whole some).children.2 child (by simp)
    have inFront {tree : Tree α level} (member : tree ∈ before.toList) {index : Nat}
        (inside : index < tree.toList.length) (incoming : Option α) :
        Steady (σ := σ) (tree.watchedRemoveAt options index incoming)
          (tree.removeAt options index incoming) := by
      obtain ⟨_, _, packed, -⟩ := (complete tree member).exists_packed positive
      exact ih packed inside fun _ => complete tree member
    have some : 0 < child.toList.length := List.length_pos_iff.mpr innerPacked.toList_ne_nil
    cases later with
    | nil =>
      simp only [watchedRemoveAt, Tree.removeAt, path.split, path.rest, List.nil_append,
        List.reverse_nil, watchedPull, pullAcross, pure_bind]
      exact (atEnd (path.short child rfl)).bind fun _ => .pure _
    | cons first middle =>
      have parts := path.parts
      simp only [watchedRemoveAt, Tree.removeAt, path.split, path.rest, List.cons_append,
        List.reverse_append, List.reverse_singleton, List.nil_append]
      apply (steady_pull (σ := σ) ?_ ?_ []).bind
      · rintro ⟨carry, later⟩
        have member : first ∈ before.toList := by simp [parts]
        exact (inFront member (path.short first rfl) carry).bind fun _ => .pure _
      · intro tree head
        obtain rfl := Option.mem_some_iff.mp head
        exact atEnd some
      · intro tree behind incoming
        have member : tree ∈ before.toList := by
          rw [parts]
          exact List.mem_append_right _ (List.mem_cons_of_mem _ (List.mem_reverse.mp behind))
        refine inFront member ?_ incoming
        rw [(complete tree member).length_toList]
        exact span_pos positive level

/-! ### Removals -/

omit [LawfulAllocator σ α] in
/-- A full tree stays full. -/
theorem Complete.backfilled (complete : tree.Complete options.segmentCapacity)
    (inside : index < tree.toList.length) (x : α) :
    ∃ (removed : Option α) (tree' : Tree α level),
      (tree.removeAt options index (some x) : Depot.Step σ _) = pure (removed, tree') ∧
        Backfilled options (some x) tree inside removed tree' := by
  obtain ⟨tree', removed, run, matched, found, contents⟩ := complete.removeAt (σ := σ) inside x
  obtain ⟨front, last, packed, full⟩ := complete.exists_packed options.segmentCapacity_pos
  obtain ⟨front', last', packed', -⟩ := packed.of_matches matched
  have large := options.supported.1
  refine ⟨some removed, tree', run, ?_⟩
  constructor
  · exact found.symm.trans (List.getElem?_eq_getElem inside)
  · exact contents
  · intro _
    refine ⟨packed'.wellFormed_log2, matched.length_toList.trans complete.length_toList, ?_⟩
    rw [segmentCount_eq_row, segmentCount_eq_row, matched.length_row]
  · intro none
    cases none
  · exact packed'.wellFormed_log2.pruned
  · rw [lastSize_of_parts packed.parts, full.size, if_neg (by omega), Nat.add_zero,
      packed.occupied_eq, packed'.occupied_eq, matched.length_row]

/-- Without an element that comes in, the last segment gives one up. -/
theorem Packed.keeps_backfilled (packed : tree.Packed options.segmentCapacity front last)
    (inside : index < tree.toList.length) :
    Keeps (tree.removeAt options index none : Depot.Step σ _) fun answer =>
      Backfilled options none tree inside answer.1 answer.2 := by
  obtain ⟨other, front', index', removed, run, matched, parts, within, found, contents⟩ :=
    packed.removeAt (σ := σ) inside
  have shorter := Buffer.size_without within
  obtain rfl : tree.toList[index] = removed :=
    Option.some.inj ((List.getElem?_eq_getElem inside).symm.trans found)
  rw [run]
  apply (Buffer.ensures_settle options (last.without index')).keeps.map
  rintro settled ⟨-, -, kept, gone⟩
  by_cases single : last.size = 1
  · obtain rfl := gone (by omega)
    have nothing : last.toList.eraseIdx index' = [] := by
      apply List.eq_nil_of_length_eq_zero
      rw [← Buffer.toList_without within, Buffer.length_toList, shorter, single]
    rw [nothing, List.append_nil] at contents
    cases front' with
    | nil => exact packed.backfilled_of_only inside matched parts single
    | cons first rest =>
      have others : first :: rest ≠ [] := List.cons_ne_nil first rest
      exact packed.backfilled_of_single inside matched parts others contents single
  · have another : 1 < last.size := by omega
    obtain rfl := kept (by omega)
    exact packed.backfilled_of_another inside matched parts within contents another

/-- A removal from a well-formed tree takes out the element at its index, and leaves the others with
the one that it takes in behind them. A full tree stays full with it. Without one the tree keeps its
shape or becomes empty, and has a segment less exactly if the last one held a single element. No
segment that is emptied on the way takes another element in. -/
theorem WellFormed.removeAt_backfills (wellFormed : tree.WellFormed options.segmentCapacity.log2)
    (inside : index < tree.toList.length)
    (whole : incoming.isSome → tree.toList.length = span options.segmentCapacity level)
    (depot : Depot σ) (sound : LawfulAllocator.Sound depot.allocator) :
    let outcome := (tree.removeAt options index incoming).run depot
    Backfilled options incoming tree inside outcome.1.1 outcome.1.2 ∧
      (tree.watchedRemoveAt options index incoming).run.run depot =
        (.ok outcome.1, outcome.2) := by
  obtain ⟨front, last, packed⟩ := wellFormed.exists_packed_of_options
  have complete : incoming.isSome → tree.Complete options.segmentCapacity := by
    intro some
    exact packed.complete (whole some)
  refine ⟨?_, (packed.steady inside complete).agrees depot sound⟩
  cases incoming with
  | none => exact (packed.keeps_backfilled inside depot sound).2
  | some x =>
    obtain ⟨removed, tree', run, backfilled⟩ := (complete rfl).backfilled (σ := σ) inside x
    rw [run]
    exact backfilled

/-- Of seventeen elements a removal leaves one segment, and of sixteen one that takes another in
leaves it full. -/
theorem removeAt_backfills_inTwo :
    let options : Options := { segmentCapacity := 16 }
    let depot : Depot (Heap Nat) := { allocator := ⟨⟩ }
    let segment : Tree Nat 0 := ({ items := Array.range 16, capacity := 16 } : Buffer Nat)
    (∃ inside : 3 < (inTwo 1).toList.length,
      let outcome := ((inTwo 1).removeAt options 3 none).run depot
      Backfilled options none (inTwo 1) inside outcome.1.1 outcome.1.2 ∧
        ((inTwo 1).watchedRemoveAt options 3 none).run.run depot =
          (.ok outcome.1, outcome.2)) ∧
      ∃ inside : 3 < segment.toList.length,
        let outcome := (segment.removeAt options 3 (some 16)).run depot
        Backfilled options (some 16) segment inside outcome.1.1 outcome.1.2 ∧
          (segment.watchedRemoveAt options 3 (some 16)).run.run depot =
            (.ok outcome.1, outcome.2) := by
  intro options depot segment
  have sixteen : options.segmentCapacity = 16 := rfl
  have pair := wellFormed_inTwo sixteen (by decide) (show 1 ≤ 16 by decide)
  have single : segment.WellFormed options.segmentCapacity.log2 := by
    rw [sixteen, @Nat.log2_two_pow 4]
    exact ⟨by decide, by decide, by decide⟩
  constructor
  · have inside : 3 < (inTwo 1).toList.length := by decide +kernel
    exact ⟨inside, pair.removeAt_backfills inside (by simp) depot trivial⟩
  · have inside : 3 < segment.toList.length := by decide +kernel
    have whole : segment.toList.length = span options.segmentCapacity 0 := by decide +kernel
    exact ⟨inside, single.removeAt_backfills inside (fun _ => whole) depot trivial⟩

end Tree

end Segmented
