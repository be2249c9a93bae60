import Segmented.Buffer.Growth
import Segmented.Tree

/-! Changes in the middle of a tree. An insertion passes the last element of each full segment on
to the next segment; a removal pulls the first element of each later segment back, from the end
to the gap. Either way all segments but the last stay full. -/

namespace Segmented.Tree

variable {σ α : Type} [Allocator σ α]

/-- Inserts into the first of a row of trees; what overflows goes to the front of the next. -/
def insertAcross {τ : Type} (insert : Nat → α → τ → Depot.Step σ (τ × Option α)) :
    Array τ → Nat → α → List τ → Depot.Step σ (Array τ × Option α)
  | done, _, x, [] => pure (done, some x)
  | done, index, x, tree :: rest => do
    match ← insert index x tree with
    | (tree, none) => return (done.push tree ++ rest, none)
    | (tree, some carry) => insertAcross insert (done.push tree) 0 carry rest

/-- Inserts `x` at `index`, and answers the last element if the tree was full to its end. -/
def insert (options : Options) :
    {level : Nat} → Nat → α → Tree α level → Depot.Step σ (Tree α level × Option α)
  | 0, index, x, (buffer : Buffer α) => do
    if buffer.isFull options then
      if buffer.size ≤ index then
        return (buffer, some x)
      else
        let (carry, buffer) := buffer.popKeeping
        let buffer ← buffer.insert options index x
        return (buffer, carry)
    else
      let buffer ← buffer.insert options index x
      return (buffer, none)
  | level + 1, index, x, (children : Array (Tree α level)) =>
    let width := span options.segmentCapacity level
    match splitFrom children (index / width) with
    | (before, later) =>
      insertAcross (fun index x child => insert options index x child) before (index % width) x
        later

/-- Puts a tree back in front of its later siblings, unless nothing is left of it. -/
def keep {level : Nat} (tree : Tree α level) (later : List (Tree α level)) :
    List (Tree α level) :=
  if tree.isEmpty then later else tree :: later

/-- Removes the first element of each of a row of trees, given last tree first, and appends it to
the tree before; answers the element that the frontmost tree lost. -/
def pullAcross {level : Nat}
    (remove : Nat → Option α → Tree α level → Depot.Step σ (Option α × Tree α level)) :
    List (Tree α level) → Option α → List (Tree α level) →
      Depot.Step σ (Option α × List (Tree α level))
  | [], carry, later => pure (carry, later)
  | tree :: before, carry, later => do
    let (first, tree) ← remove 0 carry tree
    pullAcross remove before first (keep tree later)

/-- Removes the element at `index` and appends `incoming`, which refills a full tree. -/
def removeAt (options : Options) :
    {level : Nat} → Nat → Option α → Tree α level → Depot.Step σ (Option α × Tree α level)
  | 0, index, incoming, (buffer : Buffer α) => do
    let (removed, buffer) ← buffer.removeAt options index
    match incoming with
    | none => return (removed, buffer)
    | some x =>
      let buffer ← buffer.push options x
      return (removed, buffer)
  | level + 1, index, incoming, (children : Array (Tree α level)) => do
    let width := span options.segmentCapacity level
    match splitFrom children (index / width) with
    | (before, []) =>
      Depot.notify (.breach (.indexOutOfRange (index / width) before.size))
      return (none, before)
    | (before, child :: later) =>
      let (carry, later) ← pullAcross
        (fun index incoming child => removeAt options index incoming child)
        later.reverse incoming []
      let (removed, child) ← removeAt options (index % width) carry child
      return (removed, before ++ keep child later)

/-- Removes the last element. -/
def pop (options : Options) :
    {level : Nat} → Tree α level → Depot.Step σ (Option α × Tree α level)
  | 0, (buffer : Buffer α) => do
    let (removed, buffer) ← buffer.pop options
    return (removed, buffer)
  | _ + 1, (children : Array (Tree α _)) =>
    match splitLast? children with
    | none => pure (none, #[])
    | some (children, child) => do
      let (removed, child) ← pop options child
      let children : Array (Tree α _) := if child.isEmpty then children else children.push child
      return (removed, children)

end Segmented.Tree
