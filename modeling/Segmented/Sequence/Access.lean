import Segmented.Failure
import Segmented.Sequence

/-! Reads and copies that can be refused. -/

namespace Segmented

/-- A run of `count` elements from `start` has to lie within `length`. -/
def checkSpan (name : String) (start count length : Nat) : Except Error Unit :=
  if start + count ≤ length then .ok () else .error (.span name start count length)

namespace Sequence

variable {α : Type}

/-- The element at a position that has to exist. -/
def index (position : Nat) (s : Sequence α) : Except Misuse α :=
  match s.get? position with
  | some x => .ok x
  | none => .error (.outOfBounds position s.length)

/-- The last element, where a stack has its top. -/
def top (s : Sequence α) : Except Error α :=
  match s.last? with
  | some x => .ok x
  | none => .error .empty

/-- The first element, where a queue has its front. -/
def front (s : Sequence α) : Except Error α :=
  match s.first? with
  | some x => .ok x
  | none => .error .empty

/-! ### Copies of a run of elements between a sequence and an array -/

/-- The run of `count` elements from `start`. -/
def window (start count : Nat) (s : Sequence α) : List α :=
  (List.range count).filterMap fun offset => s.get? (start + offset)

/-- The target with a run of the sequence written over its elements from `index` on. -/
def copyTo (start : Nat) (target : Array α) (index count : Nat) (s : Sequence α) :
    Except Error (Array α) := do
  checkSpan "src_index" start count s.length
  checkSpan "dest_index" index count target.size
  return target.take index ++ s.window start count ++ target.drop (index + count)

/-- What forbids to copy a run of `source` over the elements from `index` on. -/
def checkCopyFrom (source : Array α) (start index count : Nat) (s : Sequence α) :
    Except Error Unit := do
  checkSpan "src_index" start count source.size
  checkSpan "dest_index" index count s.length

/-- Writes a run of `source` over the elements from `index` on. -/
def copyFrom (source : Array α) (start index count : Nat) (s : Sequence α) : Sequence α :=
  s.overwrite index (source.extract start (start + count)).toList

end Sequence

end Segmented
