import Segmented.Proofs.CheckedGrowth

/-! Insertion and removal in a tree with every check they make: no segment is asked for more than it
has room for or for an element that it does not have, and the children are counted down without
passing the first. -/

namespace Segmented

variable {σ α : Type} [Allocator σ α]

namespace Buffer

/-- Inserts `x` at a position up to the end; a full segment must not be asked. -/
def checkedInsert (options : Options) (index : Nat) (x : α) (buffer : Buffer α) :
    Checked σ (Buffer α) :=
  if buffer.isFull options then throw (.breach (.capacityExceeded options.segmentCapacity))
  else if buffer.size < index then throw (.outside index buffer.size)
  else .lift (buffer.insert options index x)

/-- Takes the element at a position out, which has to exist. -/
def checkedRemoveAt (options : Options) (index : Nat) (buffer : Buffer α) :
    Checked σ (Option α × Buffer α) :=
  if index < buffer.size then .lift (buffer.removeAt options index)
  else throw (.outside index buffer.size)

end Buffer

namespace Tree

/-- Inserts into the first of a row of trees; what overflows goes to the front of the next. -/
def checkedInsertAcross {τ : Type} (insert : Nat → α → τ → Checked σ (τ × Option α)) :
    Array τ → Nat → α → List τ → Checked σ (Array τ × Option α)
  | done, _, x, [] => return (done, some x)
  | done, index, x, tree :: rest => do
    match ← insert index x tree with
    | (tree, none) => return (done.push tree ++ rest, none)
    | (tree, some carry) => checkedInsertAcross insert (done.push tree) 0 carry rest

def checkedInsert (options : Options) :
    {level : Nat} → Nat → α → Tree α level → Checked σ (Tree α level × Option α)
  | 0, index, x, (buffer : Buffer α) => do
    if buffer.isFull options then
      if buffer.size ≤ index then
        return (buffer, some x)
      else
        let (carry, buffer) := buffer.popKeeping
        let buffer ← buffer.checkedInsert options index x
        return (buffer, carry)
    else
      let buffer ← buffer.checkedInsert options index x
      return (buffer, none)
  | level + 1, index, x, (children : Array (Tree α level)) => do
    let (current, offset) ← split options level index
    let (before, later) := splitFrom children current
    checkedInsertAcross (fun index x child => checkedInsert options index x child) before offset x
      later

/-- Stores a child where it has been, or closes the row up if nothing is left of it. -/
def putBack {level : Nat} (children : Array (Tree α level)) (position : Nat)
    (child : Tree α level) : Except Fault (Array (Tree α level)) :=
  if child.isEmpty then Row.erase children position
  else .ok (children.setIfInBounds position child)

/-- Removes from the children below `i`, the last first, down to `current`: there the element at
`offset` goes, and from each child behind it the first one, which refills the child before. -/
def checkedRemoveDown {level : Nat}
    (remove : Nat → Option α → Tree α level → Checked σ (Option α × Tree α level))
    (current offset : Nat) :
    Nat → Option α → Array (Tree α level) → Checked σ (Option α × Array (Tree α level))
  | 0, _, _ => throw (.underflow 0 1)
  | i + 1, carry, children => do
    let child ← Row.read children i
    let (popped, child) ← remove (if i = current then offset else 0) carry child
    let children ← putBack children i child
    if i = current then
      return (popped, children)
    else
      checkedRemoveDown remove current offset i popped children

def checkedRemoveAt (options : Options) :
    {level : Nat} → Nat → Option α → Tree α level → Checked σ (Option α × Tree α level)
  | 0, index, incoming, (buffer : Buffer α) => do
    let (removed, buffer) ← buffer.checkedRemoveAt options index
    match incoming with
    | none => return (removed, buffer)
    | some x =>
      let buffer ← buffer.checkedPush options x
      return (removed, buffer)
  | level + 1, index, incoming, (children : Array (Tree α level)) => do
    let (current, offset) ← split options level index
    if children.size ≤ current then
      throw (.outside current children.size)
    else
      checkedRemoveDown (fun index incoming child => checkedRemoveAt options index incoming child)
        current offset children.size incoming children

def checkedPop (options : Options) :
    {level : Nat} → Tree α level → Checked σ (Option α × Tree α level)
  | 0, (buffer : Buffer α) => do
    let (removed, buffer) ← Checked.lift (buffer.pop options)
    return (removed, buffer)
  | _ + 1, (children : Array (Tree α _)) =>
    match children.size with
    | 0 => return (none, children)
    | last + 1 => do
      let child ← Row.read children last
      let (removed, child) ← checkedPop options child
      let children ← putBack children last child
      return (removed, children)

def checkedPopMany {level : Nat} (options : Options) :
    Nat → Tree α level → Checked σ (Tree α level)
  | 0, tree => return tree
  | count + 1, tree => do
    let (_, tree) ← tree.checkedPop options
    checkedPopMany options count tree

end Tree

variable [LawfulAllocator σ α] {options : Options}

open Checked (Agrees agrees_lift agrees_pure)
open Depot (Keeps)

namespace Buffer

variable {buffer : Buffer α} {index : Nat}

theorem agrees_checkedInsert (room : buffer.size < options.segmentCapacity)
    (inside : index ≤ buffer.size) (x : α) :
    Agrees (σ := σ) (buffer.checkedInsert options index x) (buffer.insert options index x) := by
  unfold checkedInsert
  rw [isFull_eq_false_iff.mpr room, if_neg Bool.false_ne_true, if_neg (Nat.not_lt.mpr inside)]
  exact agrees_lift _

theorem agrees_checkedRemoveAt (inside : index < buffer.size) :
    Agrees (σ := σ) (buffer.checkedRemoveAt options index) (buffer.removeAt options index) := by
  unfold checkedRemoveAt
  rw [if_pos inside]
  exact agrees_lift _

end Buffer

namespace Tree

variable {level : Nat} {tree : Tree α level} {front : List (Buffer α)} {last : Buffer α}

theorem length_child_le {children : Array (Tree α level)} {child : Tree α level}
    (present : child ∈ children.toList) :
    child.toList.length ≤ (@toList α (level + 1) children).length := by
  obtain ⟨front, back, parts⟩ := List.append_of_mem present
  rw [toList_branch, parts, List.flatMap_append, List.flatMap_cons, List.length_append,
    List.length_append]
  omega

theorem Packed.each_child {children : Array (Tree α level)}
    (packed : @Packed α (level + 1) options.segmentCapacity children front last)
    (small : (@toList α (level + 1) children).length < 2 ^ 64) :
    ∀ child ∈ children.toList,
      (∃ front last, child.Packed options.segmentCapacity front last) ∧
        child.toList.length < 2 ^ 64 := by
  obtain ⟨before, last, rfl, -⟩ := packed.shaped
  obtain ⟨inner, innerPacked, -, -, complete⟩ := packed.exists_inner
  intro child present
  refine ⟨?_, Nat.lt_of_le_of_lt (length_child_le present) small⟩
  rw [Array.toList_push] at present
  rcases List.mem_append.mp present with old | new
  · obtain ⟨_, _, packed, -⟩ := (complete child old).exists_packed packed.capacity_pos
    exact ⟨_, _, packed⟩
  · exact List.mem_singleton.mp new ▸ ⟨_, _, innerPacked⟩

/-- The way of an index leads to the child behind the earlier ones. -/
theorem Path.current {before : Array (Tree α level)} {child : Tree α level} {index offset : Nat}
    {earlier later : List (Tree α level)} {capacity : Nat}
    (path : Path capacity before child index earlier later offset) :
    index / span capacity level = earlier.length := by
  have split := path.split
  rw [splitFrom_eq] at split
  obtain ⟨front, back⟩ := Prod.mk.inj split
  have length := congrArg Array.size front
  have some := congrArg List.length back
  simp only [List.size_toArray, List.length_take, List.length_drop, List.length_append,
    List.length_singleton] at length some
  omega

/-! ### Insertion -/

theorem agrees_checkedInsertAcross {trees : List (Tree α level)} {index : Nat}
    (packed : ∀ tree ∈ trees, ∃ front last, tree.Packed options.segmentCapacity front last)
    (agrees : ∀ tree ∈ trees, ∀ index x, index < tree.toList.length →
      Agrees (σ := σ) (tree.checkedInsert options index x) (tree.insert options index x))
    (inside : ∀ first ∈ trees.head?, index < first.toList.length) (done : Array (Tree α level))
    (x : α) :
    Agrees (σ := σ)
      (checkedInsertAcross (fun index x child => checkedInsert options index x child) done index x
        trees)
      (insertAcross (fun index x child => insert options index x child) done index x trees) := by
  induction trees generalizing done index x with
  | nil => exact agrees_pure _
  | cons tree rest ih =>
    obtain ⟨_, _, packed'⟩ := packed tree (by simp)
    have inside' := inside tree rfl
    simp only [checkedInsertAcross, insertAcross]
    apply (agrees tree (by simp) index x inside').bind (ensures_insert packed' inside' x).keeps
    rintro ⟨tree', carry⟩ -
    cases carry with
    | none => exact agrees_pure _
    | some carry =>
      refine ih (fun tree member => packed tree (by simp [member]))
        (fun tree member => agrees tree (by simp [member])) (fun first head => ?_) _ _
      obtain ⟨_, _, packed''⟩ := packed first (by simp [List.mem_of_mem_head? head])
      exact List.length_pos_iff.mpr packed''.toList_ne_nil

omit [LawfulAllocator σ α] in
theorem checkedInsert_branch {index : Nat} (small : index < 2 ^ 64) (x : α)
    (children : Array (Tree α level)) :
    @checkedInsert σ α _ options (level + 1) index x children =
      checkedInsertAcross (fun index x child => checkedInsert options index x child)
        (splitFrom children (index / span options.segmentCapacity level)).1
        (index % span options.segmentCapacity level) x
        (splitFrom children (index / span options.segmentCapacity level)).2 := by
  simp only [Tree.checkedInsert]
  rw [split_eq small]
  exact liftM_ok_bind _ _

theorem Packed.agrees_checkedInsert (packed : tree.Packed options.segmentCapacity front last)
    {index : Nat} (inside : index < tree.toList.length) (small : tree.toList.length < 2 ^ 64)
    (x : α) :
    Agrees (σ := σ) (tree.checkedInsert options index x) (tree.insert options index x) := by
  induction level generalizing front last index x with
  | zero =>
    obtain ⟨-, rfl⟩ := eq_of_row_segment packed.parts
    change Buffer α at last
    have bounded := packed.filled.bounded
    have within : index < last.size := last.length_toList ▸ inside
    simp only [Tree.checkedInsert, Tree.insert]
    split
    · split
      · exact agrees_pure _
      · have shorter : last.popKeeping.2.size = last.size - 1 := Array.size_pop ..
        exact (Buffer.agrees_checkedInsert (by omega) (by omega) x).map fun _ => rfl
    · rename_i room
      exact (Buffer.agrees_checkedInsert (by simpa [Buffer.isFull] using room) (by omega) x).map
        fun _ => rfl
  | succ level ih =>
    obtain ⟨before, child, rfl, -⟩ := packed.shaped
    obtain ⟨earlier, later, offset, parts, split, rest, -, short⟩ := packed.exists_path inside
    have each : ∀ tree ∈ later ++ [child],
        (∃ front last, tree.Packed options.segmentCapacity front last) ∧
          tree.toList.length < 2 ^ 64 := by
      intro tree member
      refine packed.each_child small tree ?_
      rw [Array.toList_push, parts, List.append_assoc]
      exact List.mem_append_right _ member
    rw [checkedInsert_branch (Nat.lt_trans inside small)]
    simp only [Tree.insert, split, rest]
    refine agrees_checkedInsertAcross (fun tree member => (each tree member).1) ?_ short _ x
    intro tree member index x inside
    obtain ⟨⟨_, _, packed⟩, small⟩ := each tree member
    exact ih packed inside small x

/-! ### Removal -/

/-- The checked removal meets no fault, and there is an element to remove. -/
structure Removable (σ : Type) [Allocator σ α] [LawfulAllocator σ α] (options : Options)
    (index : Nat) (incoming : Option α) (tree : Tree α level) : Prop where
  agrees : Agrees (σ := σ) (tree.checkedRemoveAt options index incoming)
    (tree.removeAt options index incoming)
  answers : Keeps (tree.removeAt options index incoming : Depot.Step σ _) fun answer =>
    ∃ x, answer.1 = some x

theorem removable_segment {segment : Buffer α} {index : Nat}
    (bounded : segment.size ≤ options.segmentCapacity) (fits : segment.Fits)
    (inside : index < segment.size) (incoming : Option α) :
    @Removable α 0 σ _ _ options index incoming segment := by
  have removed : Keeps (segment.removeAt options index : Depot.Step σ _) fun answer =>
      (∃ x, answer.1 = some x) ∧ answer.2.size < options.segmentCapacity ∧ answer.2.Fits := by
    rw [Buffer.removeAt_of_lt inside]
    refine (Buffer.ensures_settle options (segment.without index)).keeps.map fun settled done => ?_
    have shorter := Buffer.size_without inside
    refine ⟨⟨_, rfl⟩, ?_, done.2.1 ?_⟩
    · rw [Buffer.size, done.1, ← Buffer.size]
      omega
    · exact Nat.le_trans (Nat.le_trans (Nat.le_of_eq shorter) (Nat.sub_le ..)) fits
  constructor
  · apply (Buffer.agrees_checkedRemoveAt inside).bind removed
    rintro ⟨answer, shorter⟩ ⟨-, room, -⟩
    cases incoming with
    | none => exact agrees_pure _
    | some x => exact (Buffer.agrees_checkedPush room x).map fun _ => rfl
  · apply removed.bind
    rintro ⟨answer, shorter⟩ ⟨some, room, fits⟩
    cases incoming with
    | none => exact Keeps.pure some
    | some x => exact (Buffer.ensures_push x room fits).keeps.map fun _ _ => some

omit [Allocator σ α] [LawfulAllocator σ α] in
theorem putBack_eq (earlier rest : List (Tree α level)) (child child' : Tree α level) :
    putBack (earlier ++ child :: rest).toArray earlier.length child' =
      .ok (earlier ++ keep child' rest).toArray := by
  unfold putBack keep
  cases child'.isEmpty with
  | true =>
    rw [if_pos rfl, if_pos rfl, Row.erase_eq (by simp)]
    simp [Array.eraseIdxIfInBounds, List.eraseIdx_append_of_length_le]
  | false => simp

/-- The children behind the first one are passed from the last on, and then the first one. -/
theorem agrees_checkedRemoveDown (earlier : List (Tree α level)) {behind : List (Tree α level)}
    {first : Tree α level} {offset : Nat}
    (each : ∀ tree ∈ behind, ∀ incoming, Removable σ options 0 incoming tree)
    (final : ∀ incoming, Removable σ options offset incoming first)
    (carry : Option α) (rest : List (Tree α level)) :
    Agrees (σ := σ)
      (checkedRemoveDown (fun index incoming child => checkedRemoveAt options index incoming child)
        earlier.length offset (earlier.length + 1 + behind.length) carry
        (earlier ++ first :: (behind ++ rest)).toArray)
      (do
        let (carry, later) ← pullAcross
          (fun index incoming child => removeAt options index incoming child)
          behind.reverse carry rest
        let (removed, child) ← removeAt options offset carry first
        return (removed, (earlier ++ keep child later).toArray)) := by
  -- The loop counts down, so that the induction takes the children off at their end; `rest` are
  -- those that it has already passed and kept.
  induction behind using List.reverseRecOn generalizing carry rest with
  | nil =>
    have found : Row.read (earlier ++ first :: rest).toArray earlier.length = .ok first :=
      Row.read_eq (by simp)
    rw [List.length_nil, Nat.add_zero, checkedRemoveDown, List.nil_append, found, liftM_ok_bind]
    simp only [List.reverse_nil, pullAcross, pure_bind, if_true]
    refine (final carry).agrees.map fun answer => ?_
    rw [putBack_eq, liftM_ok_bind]
  | append_singleton front tree ih =>
    have position : earlier.length + 1 + (front ++ [tree]).length =
        (earlier ++ first :: front).length + 1 := by simp; omega
    have row : earlier ++ first :: (front ++ [tree] ++ rest) =
        (earlier ++ first :: front) ++ tree :: rest := by simp
    have behind : (earlier ++ first :: front).length ≠ earlier.length := by simp
    have found : Row.read ((earlier ++ first :: front) ++ tree :: rest).toArray
        (earlier ++ first :: front).length = .ok tree := Row.read_eq (by simp)
    rw [position, row, checkedRemoveDown, found, liftM_ok_bind]
    simp only [List.reverse_append, List.reverse_singleton, List.cons_append, List.nil_append,
      pullAcross, bind_assoc, if_neg behind]
    have here := each tree (by simp) carry
    refine here.agrees.bind here.answers fun answer _ => ?_
    rw [putBack_eq, liftM_ok_bind]
    have rejoined : earlier ++ first :: front ++ keep answer.2 rest =
        earlier ++ first :: (front ++ keep answer.2 rest) := by simp
    have before : (earlier ++ first :: front).length = earlier.length + 1 + front.length := by
      simp; omega
    rw [rejoined, before]
    exact ih (fun tree member => each tree (by simp [member])) answer.1 (keep answer.2 rest)

theorem keeps_pullAcross {trees : List (Tree α level)}
    (each : ∀ tree ∈ trees, ∀ incoming, Removable σ options 0 incoming tree) (carry : Option α)
    (later : List (Tree α level)) :
    Keeps (pullAcross (fun index incoming child => removeAt options index incoming child) trees
      carry later : Depot.Step σ _) fun _ => True := by
  induction trees generalizing carry later with
  | nil => exact Keeps.pure trivial
  | cons tree rest ih =>
    refine (each tree (by simp) carry).answers.bind fun answer _ => ?_
    exact ih (fun tree member => each tree (by simp [member])) answer.1 (keep answer.2 later)

omit [LawfulAllocator σ α] in
theorem checkedRemoveAt_branch {index : Nat} (small : index < 2 ^ 64)
    {children : Array (Tree α level)}
    (inside : index / span options.segmentCapacity level < children.size) (incoming : Option α) :
    @checkedRemoveAt σ α _ options (level + 1) index incoming children =
      checkedRemoveDown (fun index incoming child => checkedRemoveAt options index incoming child)
        (index / span options.segmentCapacity level) (index % span options.segmentCapacity level)
        children.size incoming children := by
  simp only [Tree.checkedRemoveAt]
  rw [split_eq small]
  refine (liftM_ok_bind _ _).trans ?_
  exact if_neg (Nat.not_le.mpr inside)

theorem Packed.removable (packed : tree.Packed options.segmentCapacity front last)
    {index : Nat} (inside : index < tree.toList.length) (small : tree.toList.length < 2 ^ 64)
    (incoming : Option α) : Removable σ options index incoming tree := by
  induction level generalizing front last index incoming with
  | zero =>
    obtain ⟨-, rfl⟩ := eq_of_row_segment packed.parts
    exact removable_segment packed.filled.bounded packed.filled.fits
      (last.length_toList ▸ inside) incoming
  | succ level ih =>
    obtain ⟨before, child, rfl, -⟩ := packed.shaped
    obtain ⟨earlier, later, offset, path⟩ := packed.exists_path inside
    obtain ⟨first, behind, row⟩ : ∃ first behind, later ++ [child] = first :: behind :=
      List.exists_cons_of_ne_nil (by simp)
    have parts : before.push child = (earlier ++ first :: behind).toArray := by
      rw [← row, ← List.append_assoc, ← path.parts, ← Array.toList_push]
    have size : (before.push child).size = earlier.length + 1 + behind.length := by
      rw [parts]
      simp; omega
    have each := packed.each_child small
    rw [parts] at each
    have final (incoming : Option α) : Removable σ options offset incoming first := by
      obtain ⟨⟨_, _, packed⟩, small⟩ := each first (by simp)
      exact ih packed (path.short first (by rw [row]; rfl)) small incoming
    have later (tree) (member : tree ∈ behind) (incoming : Option α) :
        Removable σ options 0 incoming tree := by
      obtain ⟨⟨_, _, packed⟩, small⟩ := each tree (by simp [member])
      exact ih packed (List.length_pos_iff.mpr packed.toList_ne_nil) small incoming
    have plain : (@Tree.removeAt σ α _ options (level + 1) index incoming (before.push child)) = do
        let (carry, later) ← pullAcross
          (fun index incoming child => Tree.removeAt options index incoming child)
          behind.reverse incoming []
        let (removed, child) ← Tree.removeAt options offset carry first
        return (removed, (earlier ++ keep child later).toArray) := by
      have joined (row : List (Tree α level)) :
          earlier.toArray ++ row = (earlier ++ row).toArray := by
        simp
      simp only [Tree.removeAt, path.split, path.rest, row, joined]
    constructor
    · rw [checkedRemoveAt_branch (Nat.lt_trans inside small) (by rw [path.current, size]; omega),
        plain, path.current, path.rest, size, parts]
      have down := agrees_checkedRemoveDown earlier later final incoming []
      rw [List.append_nil] at down
      exact down
    · rw [plain]
      refine (keeps_pullAcross (fun tree member => later tree (by simpa using member)) incoming
        []).bind fun pulled _ => ?_
      exact (final pulled.1).answers.map fun _ some => some

/-! ### The last elements -/

theorem Shaped.agrees_checkedPop (shaped : tree.Shaped) :
    Agrees (σ := σ) (tree.checkedPop options) (tree.pop options) := by
  induction level with
  | zero => exact (agrees_lift _).map fun _ => rfl
  | succ level ih =>
    obtain ⟨before, child, rfl, -, -, inner⟩ := shaped
    obtain ⟨-, found, -⟩ := read_last before child
    simp only [Tree.checkedPop, Tree.pop, Array.size_push, found, liftM_ok_bind, splitLast?_push]
    refine (ih inner).map fun answer => ?_
    have row (child : Tree α level) : (before.toList ++ [child]).toArray = before.push child :=
      Array.ext' (by rw [Array.toList_push])
    have put := putBack_eq before.toList [] child answer.2
    rw [row, Array.length_toList] at put
    rw [put, liftM_ok_bind, keep]
    cases answer.2.isEmpty with
    | true => simp
    | false => simp [row]

theorem Packed.agrees_checkedPopMany {count : Nat}
    (packed : tree.Packed options.segmentCapacity front last) (more : count < tree.toList.length) :
    Agrees (σ := σ) (tree.checkedPopMany options count) (tree.popMany options count) := by
  induction count generalizing tree front last with
  | zero => exact agrees_pure _
  | succ count ih =>
    apply packed.shaped.agrees_checkedPop.bind (ensures_pop packed).keeps
    intro answer done
    have shorter : tree.toList.dropLast.length = tree.toList.length - 1 := List.length_dropLast
    obtain ⟨same, _, _, packed'⟩ := done.2 (List.ne_nil_of_length_pos (by omega))
    exact ih packed' (by rw [same]; omega)

end Tree

end Segmented
