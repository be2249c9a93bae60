/-! The reasons for which a call on a sequence is refused, and their texts. -/

namespace Segmented

/-- What a caller is told when the arguments or the state of a collection forbid a call. -/
inductive Error where
  /-- The index lies outside the collection. -/
  | indexOutOfRange (index length : Nat)
  /-- The named argument is unusable for the stated reason. -/
  | invalidArgument (name reason : String)
  /-- A segment already holds as many elements as a segment may. -/
  | capacityExceeded (limit : Nat)
  /-- The collection changed shape while a cursor was walking it. -/
  | modified
  /-- The collection holds nothing. -/
  | empty
  deriving DecidableEq, Repr

def Error.message : Error → String
  | .indexOutOfRange index length =>
    s!"index {index} is out of range for collection of length {length}"
  | .invalidArgument name reason => s!"invalid argument `{name}`: {reason}"
  | .capacityExceeded limit =>
    s!"cannot add more items: maximum segment capacity {limit} reached"
  | .modified => "collection was modified during enumeration"
  | .empty => "collection is empty"

/-- A run of `count` elements from `start` that has to lie within `length`. -/
def Error.span (name : String) (start count length : Nat) : Error :=
  .invalidArgument name s!"range of {count} elements at {start} exceeds length {length}"

/-- The half-open range from `start` to `stop` is no range of a collection of `length` elements. -/
def Error.range (start stop length : Nat) : Error :=
  .invalidArgument "range" s!"{start}..{stop} is not a valid range for length {length}"

/-- A call that breaks the contract of the collection and not merely its bounds. -/
inductive Misuse where
  /-- A mutating call on a disposed sequence. -/
  | disposed
  /-- Direct indexing outside the sequence. -/
  | outOfBounds (index length : Nat)
  /-- An exchange of two positions of which one lies outside the sequence. -/
  | exchange (first second length : Nat)
  /-- A request for more storage than can be addressed. -/
  | storage
  deriving DecidableEq, Repr

def Misuse.message : Misuse → String
  | .disposed => "PooledVec used after dispose"
  | .outOfBounds index length =>
    s!"index out of bounds: the len is {length} but the index is {index}"
  | .exchange first second length =>
    s!"swap indices ({first}, {second}) out of bounds for length {length}"
  | .storage => "capacity overflow"

/-- Why an edit or a query was refused. -/
inductive Failure where
  | error (error : Error)
  | misuse (misuse : Misuse)
  deriving DecidableEq, Repr

/-- What succeeds as a whole has succeeded in its first part. -/
theorem exists_of_bind {ε ρ τ : Type} {first : Except ε ρ} {next : ρ → Except ε τ} {answer : τ}
    (done : first >>= next = .ok answer) :
    ∃ between, first = .ok between ∧ next between = .ok answer := by
  cases first with
  | error error => cases done
  | ok between => exact ⟨between, rfl, done⟩

end Segmented
