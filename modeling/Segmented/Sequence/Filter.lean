import Segmented.Sequence.Locate
import Segmented.Sequence.Splice

/-! Removal by value and by test. A single segment is swept once; a deeper sequence is searched
and closed up again for every element that goes. Both ask the test once for every element, from
the first to the last. -/

namespace Segmented.Sequence

variable {σ α S : Type} [Allocator σ α]

/-- Removes the first element equal to `x`, and answers whether there was one. -/
def remove [BEq α] (x : α) (s : Sequence α) : Depot.Step σ (Bool × Sequence α) := do
  match s.indexOf? x with
  | none => return (false, s)
  | some index =>
    let (_, s) ← s.removeAt index
    return (true, s)

/-- The items that fail the test, in order. -/
def sweep (test : α → StateM S Bool) (items : Array α) : StateM S (Array α) :=
  items.foldlM (fun kept x => do if ← test x then return kept else return kept.push x) #[]

/-- Removes what passes the test from `start` on, one element after the other; `bound` is at least
the number of elements. -/
def removeEach (test : α → StateM S Bool) :
    Nat → Nat → Nat → S → Sequence α → Depot.Step σ (Nat × S × Sequence α)
  | 0, _, removed, state, s => pure (removed, state, s)
  | bound + 1, start, removed, state, s => do
    match (s.find test start).run state with
    | (none, state) => return (removed, state, s)
    | (some index, state) =>
      let (_, s) ← s.removeAt index
      removeEach test bound index (removed + 1) state s

/-- Removes every element that passes the test, and answers how many did. -/
def removeIf (test : α → StateM S Bool) (state : S) (s : Sequence α) :
    Depot.Step σ (Nat × S × Sequence α) := do
  match s with
  | { root := some { level := 0, tree := (buffer : Buffer α) }, length, tail, version, options,
      firstCapacity, disposed } =>
    let (kept, state) := (sweep test buffer.items).run state
    let removed := buffer.size - kept.size
    let swept : Buffer α := { buffer with items := kept }
    if removed = 0 then
      return (0, state, { root := some { level := 0, tree := swept }, length, tail, version,
                          options, firstCapacity, disposed })
    else
      let swept ← swept.settle options
      let s : Sequence α :=
        { root := some { level := 0, tree := swept }, length := length - removed, tail, version,
          options, firstCapacity, disposed }
      return (removed, state, ← s.bump.settle)
  | s => removeEach test s.length 0 0 state s

/-- Removes every element equal to `x`, and answers how many there were. -/
def removeAll [BEq α] (x : α) (s : Sequence α) : Depot.Step σ (Nat × Sequence α) := do
  let (removed, _, s) ← s.removeIf (fun y => (pure (y == x) : StateM Unit Bool)) ()
  return (removed, s)

/-- Removes every element that fails the test. -/
def retain (test : α → StateM S Bool) (state : S) (s : Sequence α) :
    Depot.Step σ (Nat × S × Sequence α) :=
  s.removeIf (fun x => do return !(← test x)) state

end Segmented.Sequence
