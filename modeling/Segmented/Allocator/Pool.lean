import Segmented.Allocator

/-! A pool that keeps returned buffers in power-of-two size classes. A request is rounded up to
its class and a returned buffer down, so a kept buffer is never too small for its class. -/

namespace Segmented

/-- Kept buffers by class: class `k` holds capacities from `2 ^ k` up to `2 ^ (k + 1)`, the most
recently returned one first. -/
structure Pool (α : Type) where
  classes : Array (List (Buffer α)) := #[]
  /-- The most buffers that one class keeps. -/
  limit : Nat := 50

namespace Pool

variable {α : Type}

/-- The number of buffers that wait to be lent again. -/
def retained (pool : Pool α) : Nat :=
  pool.classes.foldl (fun count kept => count + kept.length) 0

/-- Drops every kept buffer. -/
def trim (pool : Pool α) : Pool α := { pool with classes := #[] }

/-- The least class whose buffers hold `asked` elements: the logarithm rounded up. -/
def classFor (asked : Nat) : Nat := (2 * asked - 1).log2

/-- The class of a returned buffer: the largest whose requests it can serve. -/
def classOf (buffer : Buffer α) : Nat := buffer.capacity.log2

/-- The largest request that is rounded up to a class. -/
def largestRounded : Nat := 1 <<< 63

/-- Lends the latest buffer of the class emptied, else fresh storage of the size of the class. -/
def rent (asked : Nat) (pool : Pool α) : Buffer α × Pool α :=
  if asked = 0 then (.ofCapacity 0, pool)
  else if largestRounded < asked then (.ofCapacity asked, pool)
  else
    let k := classFor asked
    match pool.classes[k]? with
    | some (kept :: rest) =>
      (kept.cleared, { pool with classes := pool.classes.setIfInBounds k rest })
    | _ => (.ofCapacity (1 <<< k), pool)

/-- Enough empty classes for `k` to be one of them. -/
def classesThrough (k : Nat) (classes : Array (List (Buffer α))) :
    Array (List (Buffer α)) :=
  classes ++ Array.replicate (k + 1 - classes.size) []

/-- Puts a buffer in front of its class, unless the class is full. -/
def keep (buffer : Buffer α) (pool : Pool α) : Pool α :=
  let k := classOf buffer
  { pool with
    classes := (classesThrough k pool.classes).modify k fun kept =>
      if kept.length < pool.limit then buffer :: kept else kept }

/-- Keeps a buffer that has storage, with its elements unless they are to be cleared. -/
def release (buffer : Buffer α) (clear : Bool) (pool : Pool α) : Pool α :=
  if buffer.capacity = 0 then pool
  else pool.keep (if clear then buffer.cleared else buffer)

instance : Allocator (Pool α) α := ⟨rent, release⟩

/-! ### Buffers of a class fit the class -/

theorem le_shiftLeft_classFor (asked : Nat) : asked ≤ 1 <<< classFor asked := by
  have bound := Nat.lt_log2_self (n := 2 * asked - 1)
  rw [Nat.pow_succ] at bound
  rw [Nat.one_shiftLeft, classFor]
  omega

theorem shiftLeft_classOf_le {buffer : Buffer α} (stored : buffer.capacity ≠ 0) :
    1 <<< classOf buffer ≤ buffer.capacity := by
  rw [Nat.one_shiftLeft]
  exact Nat.log2_self_le stored

/-- Every class holds at most its limit of buffers, all with storage of a size of the class. -/
def Sorted (pool : Pool α) : Prop :=
  ∀ k kept, pool.classes[k]? = some kept → kept.length ≤ pool.limit ∧
    ∀ buffer ∈ kept, buffer.capacity ≠ 0 ∧ classOf buffer = k

theorem sorted_empty (limit : Nat) : ({ limit } : Pool α).Sorted := by
  intro k kept found
  simp at found

theorem sorted_trim (pool : Pool α) : pool.trim.Sorted := by
  intro k kept found
  simp [trim] at found

theorem sorted_rent (asked : Nat) {pool : Pool α} (sorted : pool.Sorted) :
    (pool.rent asked).2.Sorted := by
  unfold rent
  split
  · exact sorted
  · split
    · exact sorted
    · dsimp only
      split
      · rename_i first rest found
        have ⟨few, sizes⟩ := sorted _ _ found
        intro k kept present
        rw [Array.getElem?_setIfInBounds] at present
        split at present
        · rename_i same
          subst same
          split at present
          · obtain rfl := Option.some.inj present
            simp only [List.length_cons] at few
            exact ⟨Nat.le_of_succ_le few, fun buffer member => sizes buffer (by simp [member])⟩
          · simp at present
        · exact sorted _ _ present
      · exact sorted

theorem items_rent (asked : Nat) (pool : Pool α) : (pool.rent asked).1.items = #[] := by
  unfold rent
  split
  · rfl
  · split
    · rfl
    · dsimp only
      split <;> rfl

theorem le_capacity_rent (asked : Nat) {pool : Pool α} (sorted : pool.Sorted) :
    asked ≤ (pool.rent asked).1.capacity := by
  unfold rent
  split
  · simp_all
  · split
    · exact Nat.le_refl asked
    · dsimp only
      split
      · rename_i first rest found
        have ⟨stored, same⟩ := (sorted _ _ found).2 first (by simp)
        exact Nat.le_trans (same ▸ le_shiftLeft_classFor asked) (shiftLeft_classOf_le stored)
      · exact le_shiftLeft_classFor asked

private theorem getElem?_classesThrough {k : Nat} {classes : Array (List (Buffer α))} {j : Nat}
    {kept : List (Buffer α)} (found : (classesThrough k classes)[j]? = some kept) :
    classes[j]? = some kept ∨ kept = [] := by
  unfold classesThrough at found
  rw [Array.getElem?_append] at found
  split at found
  · exact Or.inl found
  · rw [Array.getElem?_replicate] at found
    split at found
    · exact Or.inr (Option.some.inj found).symm
    · simp at found

theorem sorted_keep {buffer : Buffer α} (stored : buffer.capacity ≠ 0) {pool : Pool α}
    (sorted : pool.Sorted) : (pool.keep buffer).Sorted := by
  intro k kept found
  have before : ∀ others, (classesThrough (classOf buffer) pool.classes)[k]? = some others →
      others.length ≤ pool.limit ∧
        ∀ b ∈ others, b.capacity ≠ 0 ∧ classOf b = k := by
    intro others present
    rcases getElem?_classesThrough present with old | rfl
    · exact sorted k others old
    · simp
  dsimp only [keep] at found ⊢
  rw [Array.getElem?_modify] at found
  split at found
  · rename_i same
    obtain ⟨others, present, rfl⟩ := Option.map_eq_some_iff.mp found
    have ⟨few, sizes⟩ := before others present
    split
    · rename_i room
      refine ⟨room, fun b member => ?_⟩
      rcases List.mem_cons.mp member with rfl | old
      · exact ⟨stored, same⟩
      · exact sizes b old
    · exact ⟨few, sizes⟩
  · exact before kept found

theorem sorted_release (buffer : Buffer α) (clear : Bool) {pool : Pool α}
    (sorted : pool.Sorted) : (pool.release buffer clear).Sorted := by
  unfold release
  split
  · exact sorted
  · rename_i stored
    exact sorted_keep (by split <;> simpa using stored) sorted

instance : LawfulAllocator (Pool α) α where
  Sound := Sorted
  rent_sound asked _ := sorted_rent asked
  release_sound buffer clear _ := sorted_release buffer clear
  rent_empty asked pool _ := items_rent asked pool
  rent_capacity asked _ := le_capacity_rent asked

end Pool

end Segmented
