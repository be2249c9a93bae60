import Segmented.Buffer.Growth
import Segmented.Tree

/-! Growth at the end of a tree. What does not fit becomes a sibling on the same level, which the
branch above takes in or passes on; a sibling of the root makes a new level. -/

namespace Segmented

/-- The storage of a segment that is opened because the one before it is full. -/
def overflowCapacity : Nat := 16

namespace Tree

variable {σ α : Type} [Allocator σ α]

/-- Takes a new last child in, or opens a sibling branch for it when the branch is full. -/
def adopt {level : Nat} (children : Array (Tree α level)) :
    Option (Tree α level) → Tree α (level + 1) × Option (Tree α (level + 1))
  | none => (children, none)
  | some child =>
    if children.size < fanout then (children.push child, none)
    else (children, some (#[child] : Array (Tree α level)))

/-- Appends `x`, and answers the sibling that had to be opened for it. -/
def push (options : Options) (x : α) :
    {level : Nat} → Tree α level → Depot.Step σ (Tree α level × Option (Tree α level))
  | 0, (buffer : Buffer α) => do
    if buffer.isFull options then
      let next : Buffer α ← Buffer.start options overflowCapacity
      let next ← next.push options x
      return (buffer, some next)
    else
      let buffer ← buffer.push options x
      return (buffer, none)
  | _ + 1, (children : Array (Tree α _)) =>
    match splitLast? children with
    | none => do
      Depot.notify (.breach (.indexOutOfRange 0 0))
      return (#[], none)
    | some (children, child) => do
      let (child, sibling) ← push options x child
      return adopt (children.push child) sibling

/-- Appends up to `count` copies of `x`: as many as the last segment has room for or, if it is
full, as many as one new segment takes. Answers the number that is still missing. -/
def fill (options : Options) (x : α) (count : Nat) :
    {level : Nat} → Tree α level → Depot.Step σ (Tree α level × Option (Tree α level) × Nat)
  | 0, (buffer : Buffer α) => do
    let room := options.segmentCapacity - buffer.size
    if 0 < room then
      let buffer ← buffer.fill options (min count room) x
      return (buffer, none, count - min count room)
    else if count = 0 then
      return (buffer, none, count)
    else
      let next : Buffer α ← Buffer.start options count
      let next ← next.fill options (min count options.segmentCapacity) x
      return (buffer, some next, count - min count options.segmentCapacity)
  | _ + 1, (children : Array (Tree α _)) =>
    match splitLast? children with
    | none => do
      Depot.notify (.breach (.indexOutOfRange 0 0))
      return (#[], none, count)
    | some (children, child) => do
      let (child, sibling, missing) ← fill options x count child
      let (children, sibling) := adopt (children.push child) sibling
      return (children, sibling, missing)

end Tree

namespace Root

variable {σ α : Type} [Allocator σ α]

/-- A first segment sized for `capacity` elements that holds `x`. -/
def singleton (options : Options) (capacity : Nat) (x : α) : Depot.Step σ (Root α) := do
  let buffer : Buffer α ← Buffer.start options capacity
  let buffer ← buffer.push options x
  return { level := 0, tree := buffer }

/-- A first segment sized for `capacity` elements, still empty. -/
def start (options : Options) (capacity : Nat) : Depot.Step σ (Root α) := do
  let buffer : Buffer α ← Buffer.start options capacity
  return { level := 0, tree := buffer }

/-- Puts a tree and the sibling opened beside it under a new root. -/
def join {level : Nat} (length : Nat) (tree : Tree α level) :
    Option (Tree α level) → Depot.Step σ (Root α)
  | none => pure { level, tree }
  | some sibling => do
    Depot.notify (.grewLevel (level + 2) length)
    return { level := level + 1, tree := (#[tree, sibling] : Array (Tree α level)) }

/-- Appends `x` to the tree of a sequence of the given length. -/
def push (options : Options) (length : Nat) (x : α) : Root α → Depot.Step σ (Root α)
  | { level := _, tree } => do
    let (tree, sibling) ← tree.push options x
    join length tree sibling

/-- Appends `count` copies of `x`, a segment at a time. -/
def fill (options : Options) (length : Nat) (x : α) (count : Nat) :
    Root α → Depot.Step σ (Root α)
  | { level, tree } => do
    if count = 0 then
      return { level, tree }
    else
      let (tree, sibling, missing) ← tree.fill options x count
      let root ← join length tree sibling
      if missing < count then
        fill options length x missing root
      else
        Depot.notify (.breach (.capacityExceeded options.segmentCapacity))
        return root
termination_by count

end Root

end Segmented
