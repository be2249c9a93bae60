import Segmented.Edit
import Segmented.Snapshot.Transfer
import Segmented.Traversal.Drain

/-! Numbered sequences that share one depot. A sequence that loses its number is dropped, and what
it holds goes back to the depot. -/

namespace Segmented

/-- A depot and the sequences that rent from it, in increasing order of their numbers. -/
structure Workspace (σ α : Type) where
  depot : Depot σ
  slots : List (Nat × Sequence α) := []

namespace Workspace

variable {σ α : Type}

def get? (slot : Nat) (workspace : Workspace σ α) : Option (Sequence α) :=
  workspace.slots.lookup slot

/-- Takes the sequence of a slot out of the list of slots. -/
def takeOut (slot : Nat) : List (Nat × Sequence α) → Option (Sequence α) × List (Nat × Sequence α)
  | [] => (none, [])
  | (number, s) :: rest =>
    if number = slot then (some s, rest)
    else
      let (found, rest) := takeOut slot rest
      (found, (number, s) :: rest)

/-- Adds a slot that is not in the list. -/
def putIn (slot : Nat) (s : Sequence α) : List (Nat × Sequence α) → List (Nat × Sequence α)
  | [] => [(slot, s)]
  | (number, t) :: rest =>
    if slot < number then (slot, s) :: (number, t) :: rest else (number, t) :: putIn slot s rest

/-- Uses the depot for a step. -/
def withDepot {ρ : Type} (step : Depot.Step σ ρ) : Workspace σ α → ρ × Workspace σ α
  | { depot, slots } =>
    let (result, depot) := step.run depot
    (result, { depot, slots })

variable [Allocator σ α]

/-- Drops a sequence that a slot may have held. -/
def discardOld : Option (Sequence α) → Depot.Step σ Unit
  | none => pure ()
  | some s => s.discard

/-- Puts a sequence into a slot; one that was there is dropped. -/
def put (slot : Nat) (s : Sequence α) : Workspace σ α → Workspace σ α
  | { depot, slots } =>
    let (old, slots) := takeOut slot slots
    let ((), depot) := (discardOld old).run depot
    { depot, slots := putIn slot s slots }

/-- Applies an edit to the sequence of a slot, if there is one. -/
def edit [BEq α] [Inhabited α] (slot : Nat) (edit : Edit α) :
    Workspace σ α → Option (Except Failure (Reply α)) × Workspace σ α
  | { depot, slots } =>
    match takeOut slot slots with
    | (none, slots) => (none, { depot, slots })
    | (some s, slots) =>
      let ((result, s), depot) := (edit.apply s).run depot
      (some result, { depot, slots := putIn slot s slots })

/-- Puts a copy of the sequence of a slot into another slot. -/
def copy (slot target : Nat) (workspace : Workspace σ α) : Bool × Workspace σ α :=
  match workspace.get? slot with
  | none => (false, workspace)
  | some s =>
    let (copied, workspace) := workspace.withDepot s.copy
    (true, workspace.put target copied)

/-- Takes the sequence of a slot apart: its first `count` elements, and the drain that is left
after them. -/
def drain (slot count : Nat) : Workspace σ α → Option (List α × Drain α) × Workspace σ α
  | { depot, slots } =>
    match takeOut slot slots with
    | (none, slots) => (none, { depot, slots })
    | (some s, slots) =>
      let (result, depot) := ((Drain.ofSequence s).take count).run depot
      (some result, { depot, slots })

/-- Restores a sequence from a source and puts it into a slot; after a failure the slot stays. -/
def restore {ω : Type} [Source ω α] [Inhabited α] (target : Nat) (source : ω)
    (workspace : Workspace σ α) : Except SnapshotError Unit × ω × Workspace σ α :=
  match workspace.withDepot (Snapshot.restore source) with
  | ((.error error, source), workspace) => (.error error, source, workspace)
  | ((.ok s, source), workspace) => (.ok (), source, workspace.put target s)

/-- Drops every sequence, in the order of the slots. -/
def close : Workspace σ α → Workspace σ α
  | { depot, slots } =>
    let ((), depot) := (slots.forM fun slot => slot.2.discard).run depot
    { depot, slots := [] }

end Workspace

end Segmented
