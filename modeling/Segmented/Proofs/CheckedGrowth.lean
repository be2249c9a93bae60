import Segmented.Proofs.CheckedPath

/-! Growth at the end of a tree with every check it makes: no segment is asked for more than it has
room for, no branch takes more children than it may have, and no level is beyond the reach of a
shift. -/

namespace Segmented

variable {σ α : Type} [Allocator σ α]

namespace Buffer

/-- Appends `x`; a full segment must not be asked. -/
def checkedPush (options : Options) (x : α) (buffer : Buffer α) : Checked σ (Buffer α) :=
  if buffer.isFull options then throw (.breach (.capacityExceeded options.segmentCapacity))
  else .lift (buffer.push options x)

/-- Appends copies of `x`; there must be room for all of them. -/
def checkedFill (options : Options) (count : Nat) (x : α) (buffer : Buffer α) :
    Checked σ (Buffer α) := do
  let target ← Word.add 64 buffer.size count
  if options.segmentCapacity < target then
    throw (.breach (.capacityExceeded options.segmentCapacity))
  else
    Checked.lift (buffer.fill options count x)

end Buffer

namespace Tree

/-- `stepBase` as it is worked out in 32 bits for a new branch, from the level of the branch. -/
def checkedStepBase (options : Options) (level : Nat) : Except Fault Nat := do
  Word.add 32 options.segmentCapacity.log2 (← Word.mul 32 16 (← Word.sub (level + 1) 1))

/-- A child goes behind the others; a full branch must not be asked. -/
def addChild {level : Nat} (children : Array (Tree α level)) (child : Tree α level) :
    Except Fault (Array (Tree α level)) :=
  if children.size < fanout then .ok (children.push child)
  else .error (.breach (.capacityExceeded fanout))

/-- A branch of one or two children. -/
def newBranch (options : Options) {level : Nat} (first : Tree α level)
    (second : Option (Tree α level)) : Except Fault (Array (Tree α level)) := do
  let children ← addChild #[] first
  let children ← match second with
    | none => pure children
    | some second => addChild children second
  let _ ← checkedStepBase options level
  return children

def checkedAdopt (options : Options) {level : Nat} (children : Array (Tree α level)) :
    Option (Tree α level) → Except Fault (Tree α (level + 1) × Option (Tree α (level + 1)))
  | none => return (children, none)
  | some child => do
    if fanout ≤ children.size then
      let sibling ← newBranch options child none
      return (children, some sibling)
    else
      return (← addChild children child, none)

def checkedPush (options : Options) (x : α) :
    {level : Nat} → Tree α level → Checked σ (Tree α level × Option (Tree α level))
  | 0, (buffer : Buffer α) => do
    if buffer.isFull options then
      let next : Buffer α ← Checked.lift (Buffer.start options overflowCapacity)
      let next ← next.checkedPush options x
      return (buffer, some next)
    else
      let buffer ← buffer.checkedPush options x
      return (buffer, none)
  | _ + 1, (children : Array (Tree α _)) => do
    let last ← Word.sub children.size 1
    let child ← Row.read children last
    let (child, sibling) ← checkedPush options x child
    checkedAdopt options (children.setIfInBounds last child) sibling

def checkedFill (options : Options) (x : α) (count : Nat) :
    {level : Nat} → Tree α level → Checked σ (Tree α level × Option (Tree α level) × Nat)
  | 0, (buffer : Buffer α) => do
    let room ← Word.sub options.segmentCapacity buffer.size
    if 0 < room then
      let buffer ← buffer.checkedFill options (min count room) x
      let missing ← Word.sub count (min count room)
      return (buffer, none, missing)
    else if count = 0 then
      return (buffer, none, count)
    else
      let taken := min count options.segmentCapacity
      let next : Buffer α ← Checked.lift (Buffer.start options taken)
      let next ← next.checkedFill options taken x
      let missing ← Word.sub count taken
      return (buffer, some next, missing)
  | _ + 1, (children : Array (Tree α _)) => do
    let last ← Word.sub children.size 1
    let child ← Row.read children last
    let (child, sibling, missing) ← checkedFill options x count child
    let (children, sibling) ← checkedAdopt options (children.setIfInBounds last child) sibling
    return (children, sibling, missing)

end Tree

namespace Root

def checkedJoin (options : Options) {level : Nat} (length : Nat) (tree : Tree α level) :
    Option (Tree α level) → Checked σ (Root α)
  | none => return { level, tree }
  | some sibling => do
    let above ← Word.add 32 level 1
    let children ← Tree.newBranch options tree (some sibling)
    let depth ← Word.add 32 above 1
    Checked.lift (Depot.notify (.grewLevel depth length))
    return { level := level + 1, tree := children }

def checkedPush (options : Options) (length : Nat) (x : α) : Root α → Checked σ (Root α)
  | { level := _, tree } => do
    let (tree, sibling) ← tree.checkedPush options x
    checkedJoin options length tree sibling

/-- Appends copies of `x` segment by segment, as long as that brings it closer to the end. -/
def checkedFill (options : Options) (length : Nat) (x : α) (count : Nat) :
    Root α → Checked σ (Root α)
  | { level, tree } => do
    if count = 0 then
      return { level, tree }
    else
      let (tree, sibling, missing) ← tree.checkedFill options x count
      let root ← checkedJoin options length tree sibling
      if missing < count then
        checkedFill options length x missing root
      else
        throw .stalled
termination_by count

end Root

variable [LawfulAllocator σ α] {options : Options}

open Checked (Agrees agrees_lift agrees_check)

theorem Options.segmentCapacity_le (options : Options) : options.segmentCapacity ≤ 2 ^ 20 :=
  options.supported.2.1

namespace Buffer

variable {buffer : Buffer α}

theorem agrees_checkedPush (room : buffer.size < options.segmentCapacity) (x : α) :
    Agrees (σ := σ) (buffer.checkedPush options x) (buffer.push options x) := by
  unfold checkedPush
  rw [isFull_eq_false_iff.mpr room]
  exact agrees_lift _

theorem agrees_checkedFill {count : Nat} (room : buffer.size + count ≤ options.segmentCapacity)
    (x : α) :
    Agrees (σ := σ) (buffer.checkedFill options count x) (buffer.fill options count x) := by
  have bound := options.segmentCapacity_le
  unfold checkedFill
  rw [Word.add_eq (by omega), liftM_ok_bind, if_neg (Nat.not_lt.mpr room)]
  exact agrees_lift _

end Buffer

namespace Tree

variable {level : Nat} {tree : Tree α level} {front : List (Buffer α)} {last : Buffer α}

/-- Where a level spans no more than a word can count, its shift is less than a word. -/
theorem stepBase_lt (narrow : span options.segmentCapacity level < 2 ^ 64) :
    stepBase options level < 64 := by
  rw [span_eq_two_pow] at narrow
  exact (Nat.pow_lt_pow_iff_right (by decide)).mp narrow

theorem checkedStepBase_eq (narrow : span options.segmentCapacity level < 2 ^ 64) :
    checkedStepBase options level = .ok (stepBase options level) := by
  have bound := stepBase_lt narrow
  unfold stepBase at bound
  unfold checkedStepBase stepBase
  rw [Word.sub_eq (Nat.le_add_left ..), Nat.add_sub_cancel]
  dsimp only [bind, Except.bind]
  rw [Word.mul_eq (by omega)]
  exact Word.add_eq (by omega)

theorem newBranch_single (narrow : span options.segmentCapacity level < 2 ^ 64)
    (child : Tree α level) : newBranch options child none = .ok #[child] := by
  unfold newBranch
  rw [checkedStepBase_eq narrow]
  rfl

theorem newBranch_pair (narrow : span options.segmentCapacity level < 2 ^ 64)
    (child sibling : Tree α level) :
    newBranch options child (some sibling) = .ok #[child, sibling] := by
  unfold newBranch
  rw [checkedStepBase_eq narrow]
  rfl

theorem checkedAdopt_eq {children : Array (Tree α level)}
    (narrow : fanout ≤ children.size → span options.segmentCapacity level < 2 ^ 64)
    (sibling : Option (Tree α level)) :
    checkedAdopt options children sibling = .ok (adopt children sibling) := by
  cases sibling with
  | none => rfl
  | some child =>
    simp only [checkedAdopt, adopt]
    by_cases room : children.size < fanout
    · rw [if_neg (Nat.not_le.mpr room), if_pos room, addChild, if_pos room]
      rfl
    · rw [if_pos (Nat.not_lt.mp room), if_neg room, newBranch_single (narrow (Nat.not_lt.mp room))]
      rfl

/-- The last child of a branch is reached by its number. -/
theorem read_last (before : Array (Tree α level)) (child : Tree α level) :
    Word.sub (before.push child).size 1 = .ok before.size ∧
      Row.read (before.push child) before.size = .ok child ∧
      ∀ other, (before.push child).setIfInBounds before.size other = before.push other := by
  refine ⟨?_, Row.read_eq (by simp), fun other => ?_⟩
  · rw [Array.size_push, Word.sub_eq (Nat.le_add_left ..), Nat.add_sub_cancel]
  · apply Array.ext'
    simp

/-- In a full branch the children in front of the last hold all that the level spans. -/
theorem narrow_of_front {before : Array (Tree α level)} {inner : List (Buffer α)}
    (complete : ∀ child ∈ before, child.Shaped ∧ child.row.length = leaves level)
    (small : options.segmentCapacity * (before.toList.flatMap row ++ inner).length < 2 ^ 64)
    (child : Tree α level) (full : fanout ≤ (before.push child).size) :
    span options.segmentCapacity level < 2 ^ 64 := by
  refine Nat.lt_of_le_of_lt ?_ small
  rw [span_eq, List.length_append, length_row_of_complete complete]
  apply Nat.mul_le_mul_left
  refine Nat.le_add_right_of_le (Nat.le_mul_of_pos_left _ ?_)
  rw [Array.size_push, fanout] at full
  omega

theorem small_inner {capacity : Nat} {outer inner : List (Buffer α)}
    (small : capacity * (outer ++ inner).length < 2 ^ 64) : capacity * inner.length < 2 ^ 64 := by
  refine Nat.lt_of_le_of_lt (Nat.mul_le_mul_left _ ?_) small
  rw [List.length_append]
  exact Nat.le_add_left ..

theorem Shaped.agrees_checkedPush (shaped : tree.Shaped) (parts : tree.row = front ++ [last])
    (small : options.segmentCapacity * front.length < 2 ^ 64) (x : α) :
    Agrees (σ := σ) (tree.checkedPush options x) (tree.push options x) := by
  induction level generalizing front with
  | zero =>
    change Buffer α at tree
    simp only [Tree.checkedPush, Tree.push]
    cases room : tree.isFull options with
    | true =>
      apply (agrees_lift _).bind (Buffer.ensures_start options overflowCapacity).keeps
      intro next started
      have vacant : next.size = 0 := by rw [Buffer.size, started.1, Array.size_empty]
      refine (Buffer.agrees_checkedPush ?_ x).map fun _ => rfl
      rw [vacant]
      exact options.segmentCapacity_pos
    | false =>
      exact (Buffer.agrees_checkedPush (Buffer.isFull_eq_false_iff.mp room) x).map fun _ => rfl
  | succ level ih =>
    obtain ⟨before, child, rfl, -, complete, inner⟩ := shaped
    obtain ⟨innerFront, split, rfl⟩ := inner.exists_front parts
    obtain ⟨position, found, stored⟩ := read_last before child
    simp only [Tree.checkedPush, Tree.push, position, found, liftM_ok_bind, splitLast?_push]
    refine (ih inner split (small_inner small)).map fun answer => ?_
    rw [stored, checkedAdopt_eq fun full => narrow_of_front complete small _ full]
    rfl

omit [LawfulAllocator σ α] in
theorem start_min (options : Options) (count : Nat) :
    (Buffer.start options (min count options.segmentCapacity) : Depot.Step σ (Buffer α)) =
      Buffer.start options count := by
  unfold Buffer.start
  rw [Nat.min_assoc, Nat.min_self]

theorem Shaped.agrees_checkedFill (shaped : tree.Shaped) (parts : tree.row = front ++ [last])
    (bounded : last.size ≤ options.segmentCapacity)
    (small : options.segmentCapacity * front.length < 2 ^ 64) (x : α) (count : Nat) :
    Agrees (σ := σ) (tree.checkedFill options x count) (tree.fill options x count) := by
  induction level generalizing front with
  | zero =>
    obtain ⟨-, rfl⟩ := eq_of_row_segment parts
    change Buffer α at last
    simp only [Tree.checkedFill, Tree.fill, Word.sub_eq bounded, liftM_ok_bind, start_min]
    split
    · refine (Buffer.agrees_checkedFill (by omega) x).map fun longer => ?_
      rw [Word.sub_eq (Nat.min_le_left ..), liftM_ok_bind]
    split
    · exact Checked.agrees_pure _
    · apply (agrees_lift _).bind (Buffer.ensures_start options count).keeps
      intro next started
      have vacant : next.size = 0 := by rw [Buffer.size, started.1, Array.size_empty]
      refine (Buffer.agrees_checkedFill (by omega) x).map fun longer => ?_
      rw [Word.sub_eq (Nat.min_le_left ..), liftM_ok_bind]
  | succ level ih =>
    obtain ⟨before, child, rfl, -, complete, inner⟩ := shaped
    obtain ⟨innerFront, split, rfl⟩ := inner.exists_front parts
    obtain ⟨position, found, stored⟩ := read_last before child
    simp only [Tree.checkedFill, Tree.fill, position, found, liftM_ok_bind, splitLast?_push]
    refine (ih inner split (small_inner small)).map fun answer => ?_
    rw [stored, checkedAdopt_eq fun full => narrow_of_front complete small _ full, liftM_ok_bind]

omit [Allocator σ α] [LawfulAllocator σ α] in
/-- A tree that has to grow beside itself holds all that its level spans. -/
theorem Open.narrow_of_grow (opened : tree.Open options.segmentCapacity front last)
    (full : last.Full options.segmentCapacity) (small : tree.toList.length < 2 ^ 64)
    {next : Buffer α} (grows : (tree.grow next).2 ≠ none) :
    span options.segmentCapacity level < 2 ^ 64 := by
  have grown := opened.shaped.grow next
  split at grown
  · exact absurd grown.1 grows
  · rename_i noRoom
    have total : tree.row.length = leaves level :=
      Nat.le_antisymm opened.shaped.length_le (Nat.not_lt.mp noRoom)
    have complete : tree.Complete options.segmentCapacity :=
      ⟨opened.shaped, total, opened.full_row full⟩
    exact complete.length_toList ▸ small

omit [Allocator σ α] [LawfulAllocator σ α] in
theorem Open.small_front (opened : tree.Open options.segmentCapacity front last)
    (small : tree.toList.length < 2 ^ 64) : options.segmentCapacity * front.length < 2 ^ 64 := by
  refine Nat.lt_of_le_of_lt ?_ small
  rw [opened.toList_eq, List.length_append, length_flatMap_of_width fun segment member =>
    (Buffer.length_toList segment).trans (opened.full segment member).size, Nat.mul_comm]
  exact Nat.le_add_right ..

end Tree

namespace Root

variable {level : Nat} {tree : Tree α level} {front : List (Buffer α)} {last : Buffer α}

theorem agrees_checkedJoin {sibling : Option (Tree α level)}
    (narrow : sibling ≠ none → Tree.span options.segmentCapacity level < 2 ^ 64) (length : Nat) :
    Agrees (σ := σ) (checkedJoin options length tree sibling) (join length tree sibling) := by
  cases sibling with
  | none => exact Checked.agrees_pure _
  | some sibling =>
    have narrow' := narrow nofun
    have bound := Tree.stepBase_lt narrow'
    unfold Tree.stepBase at bound
    simp only [checkedJoin, join]
    rw [Word.add_eq (by omega), liftM_ok_bind, Tree.newBranch_pair narrow', liftM_ok_bind,
      Word.add_eq (by omega), liftM_ok_bind]
    exact (agrees_lift _).map fun _ => rfl

theorem agrees_checkedPush (packed : tree.Packed options.segmentCapacity front last)
    (small : tree.toList.length < 2 ^ 64) (length : Nat) (x : α) :
    Agrees (σ := σ) (checkedPush options length x { level, tree })
      (push options length x { level, tree }) := by
  have opened := packed.opened
  have parts := packed.parts
  have keeps : Depot.Keeps (tree.push options x : Depot.Step σ _) fun answer =>
      answer.2 ≠ none → Tree.span options.segmentCapacity level < 2 ^ 64 := by
    cases room : last.isFull options with
    | false =>
      have space := Buffer.isFull_eq_false_iff.mp room
      rw [packed.shaped.push_of_room parts room]
      exact (Buffer.ensures_push x space packed.filled.fits).keeps.map fun _ _ some =>
        absurd rfl some
    | true =>
      have full := Buffer.full_of_isFull room packed.filled.bounded packed.filled.fits
      rw [packed.shaped.push_of_full parts room]
      exact (ensures_openWith options overflowCapacity x).keeps.map fun _ _ grows =>
        opened.narrow_of_grow full small grows
  exact (packed.shaped.agrees_checkedPush parts (opened.small_front small) x).bind keeps
    fun _ narrow => agrees_checkedJoin narrow length

/-- One round of filling: fewer copies are missing afterwards, and those that are not have gone into
the tree. -/
theorem keeps_fill (opened : tree.Open options.segmentCapacity front last) {count : Nat}
    (some : count ≠ 0) (small : tree.toList.length < 2 ^ 64) (x : α) :
    Depot.Keeps (tree.fill options x count : Depot.Step σ _) fun answer =>
      answer.2.2 < count ∧
        (answer.2.1 ≠ none → Tree.span options.segmentCapacity level < 2 ^ 64) ∧
        ∀ length, Depot.Keeps (join length answer.1 answer.2.1 : Depot.Step σ _) fun root =>
          (∃ front last, root.tree.Packed options.segmentCapacity front last) ∧
            root.tree.toList.length + answer.2.2 = tree.toList.length + count := by
  have parts := opened.parts
  have positive := options.segmentCapacity_pos
  cases room : last.isFull options with
  | false =>
    have space := Buffer.isFull_eq_false_iff.mp room
    rw [opened.shaped.fill_of_room parts room]
    refine (Buffer.ensures_fill x (by omega) (by omega)).keeps.map fun longer done => ?_
    have packed := opened.setLast done.2
    refine ⟨by dsimp only; omega, fun some => absurd rfl some, fun length => ?_⟩
    refine Depot.Keeps.pure ⟨⟨_, _, packed⟩, ?_⟩
    have elements := congrArg List.length (Appended.setLast opened done.2 done.1).elements
    rw [List.length_append, List.length_replicate] at elements
    dsimp only at elements ⊢
    omega
  | true =>
    -- The next segment takes at least one copy, so that a round makes progress here as well.
    have full := Buffer.full_of_isFull room opened.bounded opened.fits
    rw [opened.shaped.fill_of_full parts room x some]
    refine (ensures_openFilled options x some).keeps.map fun next done => ?_
    refine ⟨by dsimp only; omega, opened.narrow_of_grow full small, fun length => ?_⟩
    have joined : Depot.Ensures (σ := σ) (α := α) 0 _ _ _ _ :=
      ensures_join opened full done.2 length
    intro depot sound
    obtain ⟨sound', appended⟩ := joined.keeps depot sound
    refine ⟨sound', appended.packed, ?_⟩
    have elements := congrArg List.length appended.elements
    rw [List.length_append, done.1, List.length_replicate] at elements
    dsimp only at elements ⊢
    omega

theorem agrees_checkedFill {count : Nat} (opened : tree.Open options.segmentCapacity front last)
    (small : tree.toList.length + count < 2 ^ 64) (length : Nat) (x : α) :
    Agrees (σ := σ) (checkedFill options length x count { level, tree })
      (fill options length x count { level, tree }) := by
  induction count using Nat.strongRecOn generalizing level tree front last with
  | ind count ih =>
    unfold checkedFill fill
    by_cases none : count = 0
    · rw [if_pos none, if_pos none]
      exact Checked.agrees_pure _
    rw [if_neg none, if_neg none]
    have agrees := opened.shaped.agrees_checkedFill (σ := σ) opened.parts opened.bounded
      (opened.small_front (by omega)) x count
    apply agrees.bind (keeps_fill opened none (by omega) x)
    rintro ⟨tree', sibling, missing⟩ ⟨fewer, narrow, joined⟩
    apply (agrees_checkedJoin narrow length).bind (joined length)
    rintro ⟨level', tree''⟩ ⟨⟨front', last', packed⟩, total⟩
    rw [if_pos fewer, if_pos fewer]
    exact ih missing fewer packed.opened (by dsimp only at total; omega)

end Root

end Segmented
