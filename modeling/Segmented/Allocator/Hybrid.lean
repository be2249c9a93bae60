import Segmented.Allocator.Pool

/-! The heap for small buffers and a pool for large ones. -/

namespace Segmented

/-- Requests above the threshold are served by the pool. -/
structure Hybrid (α : Type) where
  threshold : Nat := 64
  pool : Pool α := {}

namespace Hybrid

variable {α : Type}

def rent (asked : Nat) (hybrid : Hybrid α) : Buffer α × Hybrid α :=
  if asked ≤ hybrid.threshold then (.ofCapacity asked, hybrid)
  else
    let (buffer, pool) := hybrid.pool.rent asked
    (buffer, { hybrid with pool })

/-- Only buffers above the threshold go back to the pool. -/
def release (buffer : Buffer α) (clear : Bool) (hybrid : Hybrid α) : Hybrid α :=
  if hybrid.threshold < buffer.capacity then
    { hybrid with pool := hybrid.pool.release buffer clear }
  else hybrid

instance : Allocator (Hybrid α) α := ⟨rent, release⟩

instance : LawfulAllocator (Hybrid α) α where
  Sound hybrid := hybrid.pool.Sorted
  rent_sound asked hybrid sorted := by
    dsimp only [Allocator.rent, rent]
    split
    · exact sorted
    · exact Pool.sorted_rent asked sorted
  release_sound buffer clear hybrid sorted := by
    dsimp only [Allocator.release, release]
    split
    · exact Pool.sorted_release buffer clear sorted
    · exact sorted
  rent_empty asked hybrid _ := by
    dsimp only [Allocator.rent, rent]
    split
    · rfl
    · exact Pool.items_rent asked hybrid.pool
  rent_capacity asked hybrid sorted := by
    dsimp only [Allocator.rent, rent]
    split
    · exact Nat.le_refl asked
    · exact Pool.le_capacity_rent asked sorted

end Hybrid

end Segmented
