import Segmented.Buffer

/-! Where buffers come from and where they go. An allocator lends storage for at least the number
of elements asked for and takes it back with whatever is still in it. -/

namespace Segmented

/-- Storage management with state `σ` for buffers of `α`. -/
class Allocator (σ : Type) (α : outParam Type) where
  /-- Lends a buffer for at least the given number of elements. -/
  rent : Nat → σ → Buffer α × σ
  /-- Takes a buffer back; the flag asks for its elements to be dropped at once. -/
  release : Buffer α → Bool → σ → σ

/-- What every user of an allocator relies on, in the states that satisfy `Sound`. -/
class LawfulAllocator (σ : Type) (α : outParam Type) [Allocator σ α] where
  Sound : σ → Prop
  rent_sound (asked : Nat) {state : σ} : Sound state → Sound (Allocator.rent asked state).2
  release_sound (buffer : Buffer α) (clear : Bool) {state : σ} :
    Sound state → Sound (Allocator.release buffer clear state)
  rent_empty (asked : Nat) {state : σ} :
    Sound state → (Allocator.rent asked state).1.items = #[]
  rent_capacity (asked : Nat) {state : σ} :
    Sound state → asked ≤ (Allocator.rent asked state).1.capacity

/-- Lends exactly what is asked for and forgets what it gets back. -/
structure Heap (α : Type) where

instance {α : Type} : Allocator (Heap α) α where
  rent asked heap := (.ofCapacity asked, heap)
  release _ _ heap := heap

instance {α : Type} : LawfulAllocator (Heap α) α where
  Sound _ := True
  rent_sound _ _ _ := trivial
  release_sound _ _ _ _ := trivial
  rent_empty _ _ _ := rfl
  rent_capacity asked _ _ := Nat.le_refl asked

end Segmented
