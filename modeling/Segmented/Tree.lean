import Segmented.Buffer

/-! Trees of segments. The level is part of the type, so all segments of a tree lie equally deep.
Every child but the last spans as many positions as its level allows, which turns an index into a
path by division. -/

namespace Segmented

/-- A segment at level zero, and above it a row of trees one level down. -/
def Tree (α : Type) : Nat → Type
  | 0 => Buffer α
  | level + 1 => Array (Tree α level)

/-- The most children of one branch. -/
def fanout : Nat := 65536

namespace Tree

variable {α : Type}

/-- The number of positions under a tree of the given level when it is full. -/
def span (capacity : Nat) : Nat → Nat
  | 0 => capacity
  | level + 1 => fanout * span capacity level

/-- The elements from the first to the last. -/
def toArray : {level : Nat} → Tree α level → Array α
  | 0, (buffer : Buffer α) => buffer.items
  | _ + 1, (children : Array (Tree α _)) => children.flatMap fun child => toArray child

def toList {level : Nat} (tree : Tree α level) : List α := tree.toArray.toList

/-- The segments from the first to the last. -/
def segments : {level : Nat} → Tree α level → Array (Buffer α)
  | 0, (buffer : Buffer α) => #[buffer]
  | _ + 1, (children : Array (Tree α _)) => children.flatMap fun child => segments child

def segmentCount : {level : Nat} → Tree α level → Nat
  | 0, _ => 1
  | _ + 1, (children : Array (Tree α _)) =>
    children.foldl (fun count child => count + segmentCount child) 0

/-- Nothing directly under the root: no element in a segment, no child in a branch. -/
def isEmpty : {level : Nat} → Tree α level → Bool
  | 0, (buffer : Buffer α) => buffer.isEmpty
  | _ + 1, (children : Array (Tree α _)) => children.isEmpty

/-- The number of segments under a tree of the given level when it is full. -/
def leaves : Nat → Nat
  | 0 => 1
  | level + 1 => fanout * leaves level

/-- The segment of the given number, counted from the first. -/
def segment? : {level : Nat} → Nat → Tree α level → Option (Buffer α)
  | 0, number, (buffer : Buffer α) => if number = 0 then some buffer else none
  | level + 1, number, (children : Array (Tree α level)) =>
    match children[number / leaves level]? with
    | none => none
    | some child => segment? (number % leaves level) child

/-- The number of the segment that holds the last element. -/
def lastNumber? : {level : Nat} → Tree α level → Option Nat
  | 0, _ => some 0
  | level + 1, (children : Array (Tree α level)) =>
    match children.back? with
    | none => none
    | some child => (lastNumber? child).map ((children.size - 1) * leaves level + ·)

/-- Changes the segment of the given number in place. -/
def updateSegment {m : Type → Type} [Monad m] (change : Buffer α → m (Buffer α)) :
    {level : Nat} → Nat → Tree α level → m (Tree α level)
  | 0, _, (buffer : Buffer α) => change buffer
  | level + 1, number, (children : Array (Tree α level)) =>
    children.modifyM (number / leaves level) fun child =>
      updateSegment change (number % leaves level) child

/-- Splits the last item off a row, which leaves it free to be changed in place. -/
@[noinline] def splitLast? {τ : Type} (row : Array τ) : Option (Array τ × τ) :=
  match row.back? with
  | none => none
  | some last => some (row.pop, last)

/-- Splits a row into the items before a position and the list of those from it on. -/
@[noinline] def splitFrom {τ : Type} (row : Array τ) (position : Nat) : Array τ × List τ :=
  let later := (row.extract position row.size).toList
  (row.shrink position, later)

@[simp] theorem splitLast?_empty {τ : Type} : splitLast? (#[] : Array τ) = none := rfl

@[simp] theorem splitLast?_push {τ : Type} (row : Array τ) (last : τ) :
    splitLast? (row.push last) = some (row, last) := by
  simp [splitLast?]

@[simp] theorem toList_splitFrom {τ : Type} (row : Array τ) (position : Nat) :
    (splitFrom row position).1.toList = row.toList.take position := by
  simp [splitFrom]

@[simp] theorem splitFrom_later {τ : Type} (row : Array τ) (position : Nat) :
    (splitFrom row position).2 = row.toList.drop position := by
  simp [splitFrom, List.take_of_length_le]

def get? (capacity : Nat) : {level : Nat} → Tree α level → Nat → Option α
  | 0, (buffer : Buffer α), index => buffer.items[index]?
  | level + 1, (children : Array (Tree α level)), index =>
    match children[index / span capacity level]? with
    | none => none
    | some child => get? capacity child (index % span capacity level)

/-- Changes the element at `index` in place, if there is one. -/
def modify (capacity : Nat) (change : α → α) : {level : Nat} → Nat → Tree α level → Tree α level
  | 0, index, (buffer : Buffer α) =>
    ({ buffer with items := buffer.items.modify index change } : Buffer α)
  | level + 1, index, (children : Array (Tree α level)) =>
    children.modify (index / span capacity level) fun child =>
      modify capacity change (index % span capacity level) child

/-- Overwrites the elements, segment by segment, with those of `contents` from `start` on. -/
def refill (capacity : Nat) (contents : Array α) :
    {level : Nat} → Nat → Tree α level → Tree α level
  | 0, start, (buffer : Buffer α) =>
    ({ buffer with items := contents.extract start (start + buffer.size) } : Buffer α)
  | level + 1, start, (children : Array (Tree α level)) =>
    children.mapIdx fun position child =>
      refill capacity contents (start + position * span capacity level) child

end Tree

/-- A tree of some level. -/
structure Root (α : Type) where
  level : Nat
  tree : Tree α level

end Segmented
