import Segmented.Allocator.Hybrid
import Segmented.Failure

/-! A choice between the allocators at run time, and the limit of what can be addressed. -/

namespace Segmented

/-- One of the three ways to manage storage. -/
inductive Strategy (α : Type) where
  | heap (state : Heap α)
  | pool (state : Pool α)
  | hybrid (state : Hybrid α)

namespace Strategy

variable {α : Type}

def rent (asked : Nat) : Strategy α → Buffer α × Strategy α
  | .heap state => let (buffer, state) := Allocator.rent asked state; (buffer, .heap state)
  | .pool state => let (buffer, state) := state.rent asked; (buffer, .pool state)
  | .hybrid state => let (buffer, state) := state.rent asked; (buffer, .hybrid state)

def release (buffer : Buffer α) (clear : Bool) : Strategy α → Strategy α
  | .heap state => .heap (Allocator.release buffer clear state)
  | .pool state => .pool (state.release buffer clear)
  | .hybrid state => .hybrid (state.release buffer clear)

instance : Allocator (Strategy α) α := ⟨rent, release⟩

/-- The kept buffers of the strategy, if any, lie in the classes of their sizes. -/
def Sound : Strategy α → Prop
  | .heap _ => True
  | .pool state => state.Sorted
  | .hybrid state => state.pool.Sorted

instance : LawfulAllocator (Strategy α) α where
  Sound := Sound
  rent_sound asked strategy sound := by
    cases strategy with
    | heap state => trivial
    | pool state => exact Pool.sorted_rent asked sound
    | hybrid state => exact LawfulAllocator.rent_sound (σ := Hybrid α) asked sound
  release_sound buffer clear strategy sound := by
    cases strategy with
    | heap state => trivial
    | pool state => exact Pool.sorted_release buffer clear sound
    | hybrid state => exact LawfulAllocator.release_sound (σ := Hybrid α) buffer clear sound
  rent_empty asked strategy sound := by
    cases strategy with
    | heap state => rfl
    | pool state => exact Pool.items_rent asked state
    | hybrid state => exact LawfulAllocator.rent_empty (σ := Hybrid α) asked sound
  rent_capacity asked strategy sound := by
    cases strategy with
    | heap state => exact Nat.le_refl asked
    | pool state => exact Pool.le_capacity_rent asked sound
    | hybrid state => exact LawfulAllocator.rent_capacity (σ := Hybrid α) asked sound

/-- The pool behind a strategy, if it has one. -/
def pool? : Strategy α → Option (Pool α)
  | .heap _ => none
  | .pool state => some state
  | .hybrid state => some state.pool

/-- The number of buffers kept for later, where any can be kept. -/
def retained? (strategy : Strategy α) : Option Nat := strategy.pool?.map Pool.retained

/-- Drops every kept buffer. -/
def trim : Strategy α → Strategy α
  | .heap state => .heap state
  | .pool state => .pool state.trim
  | .hybrid state => .hybrid { state with pool := state.pool.trim }

end Strategy

/-- The largest number of bytes that one buffer may take. -/
def addressable : Nat := 1 <<< 63 - 1

/-- Fresh storage of exactly `capacity` elements of `width` bytes, if it can be addressed. -/
def Buffer.allocate {α : Type} (width capacity : Nat) : Except Misuse (Buffer α) :=
  if addressable < capacity * width then .error .storage else .ok (.ofCapacity capacity)

/-- Rents for elements of `width` bytes; a request beyond the addressable changes nothing. -/
def Allocator.rentWithin {σ α : Type} [Allocator σ α] (width asked : Nat) (state : σ) :
    Except Misuse (Buffer α) × σ :=
  let (buffer, after) := Allocator.rent asked state
  if addressable < buffer.capacity * width then (.error .storage, state) else (.ok buffer, after)

end Segmented
