import Segmented.Proofs.Calls
import Segmented.Traversal.Walk

/-! A run of calls on a sequence and the same run on a list: the answers agree, and everything that
can be read between two calls is read off the list. -/

namespace Segmented

variable {σ α : Type}

/-- All that a caller can read of the elements is the list `xs`: the length, a copy of the
elements, a walk of any number of steps, every position, both ends, and the stack turned around. -/
structure Sequence.Reads (s : Sequence α) (xs : List α) : Prop where
  length : s.length = xs.length
  toList : s.toArray.toList = xs
  walk : ∀ count, (s.walk.take count).1 = xs.take count
  get? : ∀ index, s.get? index = xs[index]?
  first? : s.first? = xs.head?
  last? : s.last? = xs.getLast?
  stack : s.stackWalk.rest.reverse = xs

theorem Sequence.Valid.reads {s : Sequence α} (valid : s.Valid) : s.Reads s.toList where
  length := valid.length_eq
  toList := rfl
  walk := s.walk_take_eq
  get? := valid.get?_eq
  first? := valid.first?_eq
  last? := valid.last?_eq
  stack := by rw [valid.stackWalk_eq, List.reverse_reverse]

namespace Edit

variable [BEq α] [Inhabited α]

variable [Allocator σ α]

/-- What each of a run of calls answers, and the sequence after it. -/
def trace : List (Edit α) → Sequence α →
    Depot.Step σ (List (Except Failure (Reply α) × Sequence α))
  | [], _ => pure []
  | edit :: rest, s => do
    let (answer, s) ← edit.apply s
    let later ← trace rest s
    return (answer, s) :: later

variable [LawfulAllocator σ α]

open Depot (Ensures)

/-- The answer is that of the list, and what can be read afterwards is the list. -/
def Agrees (after : Except Failure (Reply α) × Sequence α)
    (onList : Except Failure (Reply α) × List α) : Prop :=
  after.1 = onList.1 ∧ after.2.Reads onList.2

end Edit

end Segmented
