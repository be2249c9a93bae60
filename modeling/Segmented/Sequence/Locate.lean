import Segmented.Failure
import Segmented.Order.Bisect
import Segmented.Sequence
import Segmented.Tree.Scan

/-! Linear and binary search. A test may keep a state, so that the order in which elements are
tested can be observed. -/

namespace Segmented.Sequence

variable {α S : Type}

/-- A range of positions has to start before it stops, and stop within the sequence. -/
def checkRange (start stop : Nat) (s : Sequence α) : Except Error Unit :=
  if start ≤ stop ∧ stop ≤ s.length then .ok () else .error (.range start stop s.length)

/-- The first position in a valid range whose element passes the test. -/
def findWithin (test : α → StateM S Bool) (start stop : Nat) (s : Sequence α) :
    StateM S (Option Nat) :=
  match s.root with
  | none => pure none
  | some root => root.tree.find s.options.segmentCapacity test start stop

/-- The last position in a valid range whose element passes the test. -/
def findLastWithin (test : α → StateM S Bool) (start stop : Nat) (s : Sequence α) :
    StateM S (Option Nat) :=
  match s.root with
  | none => pure none
  | some root => root.tree.findLast s.options.segmentCapacity test start stop

/-- The first position from `start` on whose element passes the test. -/
def find (test : α → StateM S Bool) (start : Nat) (s : Sequence α) : StateM S (Option Nat) :=
  if start < s.length then s.findWithin test start s.length else pure none

/-- The last position whose element passes the test. -/
def findLast (test : α → StateM S Bool) (s : Sequence α) : StateM S (Option Nat) :=
  s.findLastWithin test 0 s.length

/-- `findWithin` for a range that may be invalid; then nothing is tested. -/
def findIn (test : α → StateM S Bool) (start stop : Nat) (s : Sequence α) :
    StateM S (Except Error (Option Nat)) :=
  match s.checkRange start stop with
  | .error error => pure (.error error)
  | .ok () => .ok <$> s.findWithin test start stop

/-- `findLastWithin` for a range that may be invalid; then nothing is tested. -/
def findLastIn (test : α → StateM S Bool) (start stop : Nat) (s : Sequence α) :
    StateM S (Except Error (Option Nat)) :=
  match s.checkRange start stop with
  | .error error => pure (.error error)
  | .ok () => .ok <$> s.findLastWithin test start stop

/-- The first position from `start` on that holds `x`. -/
def indexOfFrom? [BEq α] (x : α) (start : Nat) (s : Sequence α) : Option Nat :=
  ((s.find (fun y => (pure (y == x) : StateM Unit Bool)) start).run ()).1

/-- The first position that holds `x`. -/
def indexOf? [BEq α] (x : α) (s : Sequence α) : Option Nat := s.indexOfFrom? x 0

def contains [BEq α] (x : α) (s : Sequence α) : Bool := (s.indexOf? x).isSome

/-- Binary search in a valid range: by halving in a single segment, else between two bounds. -/
def searchWithin (order : α → Ordering) (start stop : Nat) (s : Sequence α) : Location :=
  if s.isFlat then Bisect.halving (fun index => (s.get? index).map order) start stop
  else Bisect.between (fun index => (s.get? index).map order) start stop

/-- Binary search of a sequence that is sorted with respect to `order`. -/
def search (order : α → Ordering) (s : Sequence α) : Location :=
  s.searchWithin order 0 s.length

/-- `searchWithin` for a range that may be invalid; then nothing is compared. -/
def searchIn (order : α → Ordering) (start stop : Nat) (s : Sequence α) :
    Except Error Location :=
  match s.checkRange start stop with
  | .error error => .error error
  | .ok () => .ok (s.searchWithin order start stop)

end Segmented.Sequence
