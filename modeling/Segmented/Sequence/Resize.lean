import Segmented.Sequence.Clear
import Segmented.Sequence.Splice
import Segmented.Tree.Carry

/-! Changes of the length in bulk. -/

namespace Segmented

variable {σ α : Type} [Allocator σ α]

/-- Removes the last `count` elements one by one. -/
def Tree.popMany {level : Nat} (options : Options) :
    Nat → Tree α level → Depot.Step σ (Tree α level)
  | 0, tree => pure tree
  | count + 1, tree => do
    let (_, tree) ← tree.pop options
    popMany options count tree

namespace Sequence

/-- Appends copies of `x` until there are `length` elements. -/
def ensure (length : Nat) (x : α) (s : Sequence α) : Depot.Step σ (Sequence α) := do
  if length ≤ s.length then
    return s
  else
    let (root, s) := s.detach
    let missing := length - s.length
    let root ← match root with
      | none => Root.start s.options missing
      | some root => pure root
    let root ← root.fill s.options s.length x missing
    return { s with root := some root, length }.bump.refreshTail

/-- Drops all but the first `length` elements. -/
def truncate (length : Nat) (s : Sequence α) : Depot.Step σ (Sequence α) := do
  if s.length ≤ length then
    return s
  else if length = 0 then
    s.clear
  else
    match s.detach with
    | (none, s) => return s
    | (some { level := 0, tree := (buffer : Buffer α) }, s) =>
      let buffer ← buffer.truncate s.options length
      ({ s with root := some { level := 0, tree := buffer }, length }.bump).settle
    | (some { level := level + 1, tree }, s) =>
      let tree ← tree.popMany s.options (s.length - length)
      ({ s with root := some { level := level + 1, tree }, length }.bump).settle

/-- Grows with copies of `x` or shrinks to `length` elements. -/
def resize (length : Nat) (x : α) (s : Sequence α) : Depot.Step σ (Sequence α) :=
  if s.length < length then s.ensure length x else s.truncate length

/-- The length that takes in a position, as a word of 64 bits counts it: after the largest number
comes zero. -/
def countTo (index : Nat) : Nat := (index + 1) % UInt64.size

theorem countTo_le (index : Nat) : countTo index ≤ index + 1 := Nat.mod_le ..

theorem countTo_of_lt {index : Nat} (small : index + 1 < UInt64.size) :
    countTo index = index + 1 :=
  Nat.mod_eq_of_lt small

/-- Puts `x` at `index`, after growing with default elements if the position is new. Nothing takes
in the last position of 64 bits, and nothing is stored there. -/
def placeAt [Inhabited α] (index : Nat) (x : α) (s : Sequence α) :
    Depot.Step σ (Sequence α) := do
  let s ← if s.length ≤ index then s.ensure (countTo index) default else pure s
  return s.modify index fun _ => x

/-- A position that is not new is within the length. -/
theorem placeAt_eq [Inhabited α] (index : Nat) (x : α) (s : Sequence α) :
    (s.placeAt index x : Depot.Step σ (Sequence α)) = do
      let s ← s.ensure (countTo index) default
      return s.modify index fun _ => x := by
  unfold placeAt
  split
  · rfl
  · rename_i inside
    have within : countTo index ≤ s.length :=
      Nat.le_trans (countTo_le index) (Nat.lt_of_not_le inside)
    have idle : (s.ensure (countTo index) default : Depot.Step σ (Sequence α)) = pure s :=
      if_pos within
    rw [idle]

end Sequence

end Segmented
