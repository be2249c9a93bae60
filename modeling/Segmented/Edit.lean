import Segmented.Sequence.Access
import Segmented.Sequence.Arrange
import Segmented.Sequence.Filter
import Segmented.Sequence.Resize

/-! Every call that can change a sequence, as data. A call is refused before it has any effect, or
it is carried out in full. -/

namespace Segmented

/-- A test that may depend on the elements it was asked about before. -/
structure Test (α : Type) where
  answer : Array α → α → Bool

/-- Asks about `x` and remembers that it was asked. -/
def Test.ask {α : Type} (test : Test α) (x : α) : StateM (Array α) Bool :=
  fun asked => (test.answer asked x, asked.push x)

/-- A call on a sequence. -/
inductive Edit (α : Type) where
  | push (x : α)
  | extend (xs : List α)
  | pop
  | removeLast
  | insert (index : Nat) (x : α)
  | removeAt (index : Nat)
  | set (index : Nat) (x : α)
  /-- Stores `x` at a position if there is one, disposed or not. -/
  | replace (index : Nat) (x : α)
  | replaceLast (x : α)
  /-- Stores `x` at a position that has to exist. -/
  | assign (index : Nat) (x : α)
  /-- Stores `x` at a position of the single segment. -/
  | replaceFlat (index : Nat) (x : α)
  | exchange (first second : Nat)
  | clear
  | dispose
  | reverse
  | sort (order : α → α → Ordering)
  | sortUnstable (order : α → α → Ordering)
  | ensure (length : Nat) (x : α)
  | resize (length : Nat) (x : α)
  | truncate (length : Nat)
  | placeAt (index : Nat) (x : α)
  | copyFrom (source : Array α) (start index count : Nat)
  | remove (x : α)
  | removeAll (x : α)
  | removeIf (test : Test α)
  | retain (test : Test α)

/-- What a call answers. -/
inductive Reply (α : Type) where
  | done
  | element (x : α)
  | option (x : Option α)
  | flag (value : Bool)
  | count (n : Nat)
  /-- How many elements went, and the elements that the test was asked about, in order. -/
  | removed (count : Nat) (asked : Array α)
  | retained (asked : Array α)
  /-- The elements lie in more than one segment. -/
  | deep

namespace Edit

variable {σ α : Type}

/-- The call is refused after disposal. -/
def needsLive : Edit α → Bool
  | replace .. | replaceLast .. | assign .. | replaceFlat .. | exchange .. => false
  | clear | dispose => false
  | extend xs => !xs.isEmpty
  | _ => true

/-- What the arguments of the call violate in a sequence, if anything. -/
def violation? (s : Sequence α) : Edit α → Option Failure
  | removeLast => if s.length = 0 then some (.error .empty) else none
  | insert index _ =>
    if s.length < index then some (.error (.indexOutOfRange index s.length)) else none
  | removeAt index | set index _ =>
    if s.length ≤ index then some (.error (.indexOutOfRange index s.length)) else none
  | assign index _ =>
    if s.length ≤ index then some (.misuse (.outOfBounds index s.length)) else none
  | exchange first second =>
    if first < s.length ∧ second < s.length then none
    else some (.misuse (.exchange first second s.length))
  | copyFrom source start index count =>
    match s.checkCopyFrom source start index count with
    | .ok () => none
    | .error error => some (.error error)
  | _ => none

/-- Why the call is refused, if it is; disposal comes before the arguments. -/
def refusal? (s : Sequence α) (edit : Edit α) : Option Failure :=
  if s.disposed && edit.needsLive then some (.misuse .disposed) else edit.violation? s

variable [Allocator σ α] [BEq α] [Inhabited α]

/-- Answers what a position holds and stores `x` there. -/
private def storing (position : Nat) (x : α) (s : Sequence α) : Option α × Sequence α :=
  let old := s.get? position
  (old, s.modify position fun _ => x)

/-- Carries out a call that is not refused. -/
def perform (s : Sequence α) : Edit α → Depot.Step σ (Reply α × Sequence α)
  | push x => do return (.done, ← s.push x)
  | extend xs => do return (.done, ← s.extend xs)
  | pop => do
    let (removed, s) ← s.pop
    return (.option removed, s)
  | removeLast => do
    let (removed, s) ← s.pop
    return (answer removed, s)
  | insert index x => do return (.done, ← s.insert index x)
  | removeAt index => do
    let (removed, s) ← s.removeAt index
    return (answer removed, s)
  | set index x =>
    let (old, s) := storing index x s
    pure (answer old, s)
  | assign index x => pure (.done, s.modify index fun _ => x)
  | replace index x =>
    let (old, s) := storing index x s
    pure (.option old, s)
  | replaceLast x => do
    let old := s.last?
    return (.option old, ← s.updateTail fun buffer => pure (buffer.replaceLast x))
  | replaceFlat index x =>
    if s.isFlat then
      let (old, s) := storing index x s
      pure (.option old, s)
    else
      pure (.deep, s)
  | exchange first second => pure (.done, s.exchange first second)
  | clear => do return (.done, ← s.clear)
  | dispose => do return (.done, ← s.dispose)
  | reverse => pure (.done, s.reverse)
  | sort order => do return (.done, ← s.sort order)
  | sortUnstable order => do return (.done, ← s.sortUnstable order)
  | ensure length x => do return (.done, ← s.ensure length x)
  | resize length x => do return (.done, ← s.resize length x)
  | truncate length => do return (.done, ← s.truncate length)
  | placeAt index x => do return (.done, ← s.placeAt index x)
  | copyFrom source start index count => pure (.done, s.copyFrom source start index count)
  | remove x => do
    let (found, s) ← s.remove x
    return (.flag found, s)
  | removeAll x => do
    let (count, s) ← s.removeAll x
    return (.count count, s)
  | removeIf test => do
    let (count, asked, s) ← s.removeIf test.ask #[]
    return (.removed count asked, s)
  | retain test => do
    let (_, asked, s) ← s.retain test.ask #[]
    return (.retained asked, s)
where
  /-- The element of a position that is known to exist. -/
  answer : Option α → Reply α
    | some x => .element x
    | none => .option none

/-- Refuses a call or carries it out. -/
def apply (edit : Edit α) (s : Sequence α) :
    Depot.Step σ (Except Failure (Reply α) × Sequence α) := do
  match edit.refusal? s with
  | some failure => return (.error failure, s)
  | none =>
    let (reply, s) ← edit.perform s
    return (.ok reply, s)

end Edit

end Segmented
