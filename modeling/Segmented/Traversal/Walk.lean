import Segmented.Failure
import Segmented.Sequence

/-! Three ways to go over the elements of a sequence and leave it as it is: segment by segment, down
a stack, and with a cursor that is kept apart. -/

namespace Segmented

/-! ### Walks: a copy of a walk goes on by itself -/

/-- The segment being walked, the position in it, the segments ahead, and the number of elements
still to come. -/
structure Walk (α : Type) where
  current : Array α := #[]
  position : Nat := 0
  ahead : List (Buffer α) := []
  remaining : Nat := 0

namespace Walk

variable {α : Type}

/-- The first element of the segments ahead, past any that are empty. -/
def enter (remaining : Nat) : List (Buffer α) → Option α × Walk α
  | [] => (none, { remaining })
  | buffer :: ahead =>
    match buffer.items[0]? with
    | none => enter remaining ahead
    | some x => (some x, { current := buffer.items, position := 1, ahead,
                           remaining := remaining - 1 })

/-- The next element, if there is one. -/
def next (walk : Walk α) : Option α × Walk α :=
  match walk.current[walk.position]? with
  | some x =>
    (some x, { walk with position := walk.position + 1, remaining := walk.remaining - 1 })
  | none => enter walk.remaining walk.ahead

/-- The elements that up to `count` calls of `next` yield. -/
def take (walk : Walk α) : Nat → List α × Walk α
  | count => go count [] walk
where
  go : Nat → List α → Walk α → List α × Walk α
    | 0, taken, walk => (taken.reverse, walk)
    | count + 1, taken, walk =>
      match walk.next with
      | (none, walk) => (taken.reverse, walk)
      | (some x, walk) => go count (x :: taken) walk

/-- The elements still to come. -/
def rest (walk : Walk α) : List α × Walk α := walk.take walk.remaining

end Walk

/-- A walk from the first element on. -/
def Sequence.walk {α : Type} (s : Sequence α) : Walk α :=
  match s.flat? with
  | some items => { current := items, remaining := s.length }
  | none => { ahead := s.segments.toList, remaining := s.length }

/-! ### From the last element to the first, from either end -/

/-- The elements of a sequence at positions from `low` below `high`, the top of the stack first. -/
structure StackWalk (α : Type) where
  source : Sequence α
  low : Nat
  high : Nat

/-- A walk down the stack. -/
def Sequence.stackWalk {α : Type} (s : Sequence α) : StackWalk α :=
  { source := s, low := 0, high := s.length }

namespace StackWalk

variable {α : Type}

def remaining (walk : StackWalk α) : Nat := walk.high - walk.low

/-- The uppermost element still to come. -/
def next (walk : StackWalk α) : Option α × StackWalk α :=
  if walk.low < walk.high then
    (walk.source.get? (walk.high - 1), { walk with high := walk.high - 1 })
  else (none, walk)

/-- The lowest element still to come. -/
def nextBack (walk : StackWalk α) : Option α × StackWalk α :=
  if walk.low < walk.high then (walk.source.get? walk.low, { walk with low := walk.low + 1 })
  else (none, walk)

/-- What `count` calls of `step` yield. -/
def yields (step : StackWalk α → Option α × StackWalk α) (walk : StackWalk α) (count : Nat) :
    List α × StackWalk α :=
  go count [] walk
where
  go : Nat → List α → StackWalk α → List α × StackWalk α
    | 0, taken, walk => (taken.reverse, walk)
    | count + 1, taken, walk =>
      match step walk with
      | (none, walk) => (taken.reverse, walk)
      | (some x, walk) => go count (x :: taken) walk

/-- The elements still to come, the uppermost first. -/
def rest (walk : StackWalk α) : List α := (walk.yields next walk.remaining).1

end StackWalk

/-! ### Cursors: positions that refuse to go on after the shape of the sequence has changed -/

/-- A position, and the version of the sequence when the cursor was made. -/
structure Cursor where
  version : UInt16
  position : Nat := 0
  deriving DecidableEq, Repr

/-- A cursor before the first element. -/
def Sequence.cursor {α : Type} (s : Sequence α) : Cursor := { version := s.version }

namespace Cursor

variable {α : Type}

/-- The element at the cursor, which moves past it, or none at the end. -/
def advance (s : Sequence α) (cursor : Cursor) : Except Error (Option α) × Cursor :=
  if s.version ≠ cursor.version then (.error .modified, cursor)
  else
    match s.get? cursor.position with
    | none => (.ok none, cursor)
    | some x => (.ok (some x), { cursor with position := cursor.position + 1 })

/-- How a run of advances came to its end. -/
inductive Ending where
  | steps
  | finished
  | refused (error : Error)

/-- Advances up to `count` times, until the end or a refusal. -/
def advanceMany (s : Sequence α) (count : Nat) (cursor : Cursor) : List α × Ending × Cursor :=
  go count [] cursor
where
  go : Nat → List α → Cursor → List α × Ending × Cursor
    | 0, taken, cursor => (taken.reverse, .steps, cursor)
    | count + 1, taken, cursor =>
      match cursor.advance s with
      | (.error error, cursor) => (taken.reverse, .refused error, cursor)
      | (.ok none, cursor) => (taken.reverse, .finished, cursor)
      | (.ok (some x), cursor) => go count (x :: taken) cursor

end Cursor

end Segmented
