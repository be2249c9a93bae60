/-! Binary search over positions, given how the element at each position compares with what is
sought. Both searches agree on whether and where an absent element belongs; among equal elements
they may settle on different ones. -/

namespace Segmented

/-- Where a sought element is, or where it would have to be inserted to keep the order. -/
inductive Location where
  | found (index : Nat)
  | missing (index : Nat)
  deriving DecidableEq, Repr

namespace Bisect

/-- Narrows the range from `low` below `high` at its middle until an equal element is met. -/
def between (order : Nat → Option Ordering) (low high : Nat) : Location :=
  if low < high then
    let middle := low + (high - low) / 2
    match order middle with
    | none => .missing low
    | some .lt => between order (middle + 1) high
    | some .gt => between order low middle
    | some .eq => .found middle
  else .missing low
termination_by high - low

/-- Halves the run of `size` positions from `base` until one is left, and never stops early: the
lower half is left as soon as the middle element is not greater. -/
def lastNotGreater (order : Nat → Option Ordering) (base size : Nat) : Nat :=
  if 1 < size then
    let middle := base + size / 2
    let next := if order middle = some .gt then base else middle
    lastNotGreater order next (size - size / 2)
  else base
termination_by size

/-- Searches the range from `low` below `high` by halving its length. -/
def halving (order : Nat → Option Ordering) (low high : Nat) : Location :=
  if low < high then
    let base := lastNotGreater order low (high - low)
    match order base with
    | some .eq => .found base
    | some .lt => .missing (base + 1)
    | _ => .missing base
  else .missing low

end Bisect

end Segmented
