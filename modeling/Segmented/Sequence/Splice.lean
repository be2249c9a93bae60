import Segmented.Sequence.Clear
import Segmented.Tree.Append
import Segmented.Tree.Carry

/-! Insertion and removal of single elements, at the end and at any position. -/

namespace Segmented.Sequence

variable {σ α : Type} [Allocator σ α]

/-! ### At the end -/

/-- Appends an element through the tree. -/
def pushDeep (x : α) (s : Sequence α) : Depot.Step σ (Sequence α) := do
  let (root, s) := s.detach
  let root ← match root with
    | none => Root.singleton s.options s.firstCapacity x
    | some root => root.push s.options s.length x
  return { s with root := some root, length := s.length + 1 }.bump.refreshTail

/-- Appends an element, at the tail if the segment there has room. -/
def push (x : α) (s : Sequence α) : Depot.Step σ (Sequence α) := do
  let options := s.options
  if s.tailSegment?.any fun buffer => !buffer.isFull options then
    let s ← s.updateTail fun buffer => buffer.push options x
    return { s with length := s.length + 1 }.bump
  else
    s.pushDeep x

/-- Appends the listed elements one by one. -/
def extend (xs : List α) (s : Sequence α) : Depot.Step σ (Sequence α) :=
  xs.foldlM (fun s x => s.push x) s

/-- The sequence of the listed elements. -/
def ofList (xs : List α) : Depot.Step σ (Sequence α) := extend xs {}

/-- A sequence of its own with the same elements and options. -/
def copy (s : Sequence α) : Depot.Step σ (Sequence α) :=
  extend s.toList { options := s.options, firstCapacity := s.firstCapacity }

/-- Removes and answers the last element through the tree. -/
def popDeep (s : Sequence α) : Depot.Step σ (Option α × Sequence α) := do
  match s.detach with
  | (none, s) => return (none, s)
  | (some { level, tree }, s) =>
    let (removed, tree) ← tree.pop s.options
    let s := { s with root := some { level, tree } }
    match removed with
    | none => return (none, s)
    | some x => return (some x, ← ({ s with length := s.length - 1 }.bump).settle)

/-- Removes and answers the last element, if there is one: at the tail if the segment there holds
another one. -/
def pop (s : Sequence α) : Depot.Step σ (Option α × Sequence α) := do
  if s.length = 0 then
    return (none, s)
  else if s.tailSegment?.any fun buffer => 1 < buffer.size then
    let removed := s.last?
    let s ← s.updateTail fun buffer => pure buffer.popKeeping.2
    return (removed, { s with length := s.length - 1 }.bump)
  else
    s.popDeep

/-! ### At any position -/

/-- Inserts `x` into a tree, and appends what overflows. -/
def insertDeep (index : Nat) (x : α) (root : Root α) (s : Sequence α) :
    Depot.Step σ (Sequence α) := do
  match root with
  | { level, tree } =>
    let (tree, carry) ← tree.insert s.options index x
    let root ← match carry with
      | none => pure { level, tree }
      | some carry => Root.push s.options s.length carry { level, tree }
    return { s with root := some root, length := s.length + 1 }.bump.refreshTail

/-- Puts `x` at a position up to the length and moves the later elements up. -/
def insert (index : Nat) (x : α) (s : Sequence α) : Depot.Step σ (Sequence α) := do
  if index = s.length then
    s.push x
  else
    match s.detach with
    | (none, s) =>
      Depot.notify (.breach (.indexOutOfRange index s.length))
      return s
    | (some { level := 0, tree := (buffer : Buffer α) }, s) =>
      if buffer.isFull s.options then
        insertDeep index x { level := 0, tree := buffer } s
      else
        let buffer ← buffer.insert s.options index x
        return { s with root := some { level := 0, tree := buffer }, length := s.length + 1 }.bump
    | (some root, s) => insertDeep index x root s

/-- Removes and answers the element at a position and moves the later elements down. -/
def removeAt (index : Nat) (s : Sequence α) : Depot.Step σ (Option α × Sequence α) := do
  match s.detach with
  | (none, s) =>
    Depot.notify (.breach (.indexOutOfRange index s.length))
    return (none, s)
  | (some { level, tree }, s) =>
    let (removed, tree) ← tree.removeAt s.options index none
    let s := { s with root := some { level, tree }, length := s.length - 1 }.bump
    return (removed, ← s.settle)

end Segmented.Sequence
