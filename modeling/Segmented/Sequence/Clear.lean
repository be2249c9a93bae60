import Segmented.Depot
import Segmented.Sequence

/-! The end of the contents of a sequence: clearing, disposal, and what happens to a sequence that
nobody holds any more. -/

namespace Segmented.Sequence

variable {σ α : Type} [Allocator σ α]

/-- Gives the segments of a tree back as they are, from the first to the last. -/
def reclaimAll (options : Options) : Option (Root α) → Depot.Step σ Unit
  | none => pure ()
  | some root =>
    root.tree.segments.forM fun buffer => Depot.reclaim buffer options.clearsOnReturn

/-- Lets go of the tree of a sequence that a removal has emptied, and looks the tail of any other
up again. -/
def settle (s : Sequence α) : Depot.Step σ (Sequence α) := do
  if s.length = 0 then
    let (root, s) := s.detach
    reclaimAll s.options root
    Depot.notify .collapsed
    return { s with tail := none }
  else
    return s.refreshTail

/-- Removes every element and gives the storage back; an empty sequence stays as it is. -/
def clear (s : Sequence α) : Depot.Step σ (Sequence α) := do
  if s.length = 0 && s.root.isNone then
    return s
  else
    let (root, s) := s.detach
    reclaimAll s.options root
    return { s with tail := none, length := 0 }.bump

/-- Clears the sequence for good. A disposed sequence has the highest version. -/
def dispose (s : Sequence α) : Depot.Step σ (Sequence α) := do
  if s.disposed then
    return s
  else
    let s ← s.clear
    Depot.notify .disposed
    return { s with version := 65535, disposed := true }

/-- Gives back what a sequence holds that is no longer wanted; one with elements that was never
disposed is worth a notice. -/
def discard (s : Sequence α) : Depot.Step σ Unit := do
  if !s.disposed && 0 < s.length then
    Depot.notify (.abandoned s.length s.segmentCount)
  let _ ← s.clear
  return ()

end Segmented.Sequence
