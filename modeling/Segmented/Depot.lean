import Segmented.Allocator
import Segmented.Failure

/-! The storage side of a run: one allocator shared by every sequence, the calls made on it, and
the notices that sequences leave about their shape. -/

namespace Segmented

/-- A call on the allocator, in the order of calls. -/
inductive Call where
  /-- A buffer was asked for, and one of capacity `got` was lent. -/
  | rent (asked got : Nat)
  /-- A buffer went back with `leftover` elements still in it. -/
  | release (capacity leftover : Nat) (clear : Bool)
  deriving DecidableEq, Repr

/-- A lent buffer is written `+asked=got`, a returned one `-capacity/leftover` with `c` or `k`
for clear or keep. -/
def Call.text : Call → String
  | .rent asked got => s!"+{asked}={got}"
  | .release capacity leftover clear =>
    s!"-{capacity}/{leftover}" ++ if clear then "c" else "k"

/-- An event in the life of a sequence that its elements do not show. -/
inductive Notice where
  | grewLevel (depth length : Nat)
  | sortingRebuilt (length : Nat)
  | serialized (elements segments : Nat)
  | deserialized (elements segments : Nat)
  | disposed
  | collapsed
  | abandoned (length segments : Nat)
  /-- An internal step met a state that well-formed sequences never reach. -/
  | breach (error : Error)
  deriving DecidableEq, Repr

def Notice.text : Notice → String
  | .grewLevel depth length => s!"DEBUG pooled vec grew a level depth={depth} len={length}"
  | .sortingRebuilt length => s!"DEBUG sorting through a rebuilt tree len={length}"
  | .serialized elements segments =>
    s!"DEBUG serialized pooled vec elements={elements} segments={segments}"
  | .deserialized elements segments =>
    s!"DEBUG deserialized pooled vec elements={elements} segments={segments}"
  | .disposed => "TRACE pooled vec disposed"
  | .collapsed => "TRACE pooled vec collapsed to empty"
  | .abandoned length segments =>
    s!"TRACE dropping pooled vec that was never disposed len={length} segments={segments}"
  | .breach error => "ERROR pooled buffer invariant violated: " ++ error.message

/-- An allocator together with the record of its use. -/
structure Depot (σ : Type) where
  allocator : σ
  calls : Array Call := #[]
  notices : Array Notice := #[]

/-- A step that may use the depot. -/
abbrev Depot.Step (σ ρ : Type) := StateM (Depot σ) ρ

namespace Depot

variable {σ α : Type}

/-- Lends a buffer from the allocator. -/
def rent [Allocator σ α] (asked : Nat) : Step σ (Buffer α) := fun
  | { allocator, calls, notices } =>
    let (buffer, allocator) := Allocator.rent asked allocator
    (buffer, { allocator, calls := calls.push (.rent asked buffer.capacity), notices })

/-- Gives a buffer back to the allocator. -/
def release [Allocator σ α] (buffer : Buffer α) (clear : Bool) : Step σ Unit := fun
  | { allocator, calls, notices } =>
    let call := .release buffer.capacity buffer.size clear
    ((), { allocator := Allocator.release buffer clear allocator
           calls := calls.push call, notices })

/-- Gives a buffer back if it has storage, which shows in its capacity as elements take up room. -/
def reclaim [Allocator σ α] (buffer : Buffer α) (clear : Bool) : Step σ Unit :=
  if 0 < buffer.capacity then release buffer clear else pure ()

def notify (notice : Notice) : Step σ Unit := fun
  | { allocator, calls, notices } => ((), { allocator, calls, notices := notices.push notice })

/-- The same depot with an empty record. -/
def fresh (depot : Depot σ) : Depot σ := { allocator := depot.allocator }

end Depot

end Segmented
