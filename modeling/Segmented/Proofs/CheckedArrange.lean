import Segmented.Proofs.CheckedLength
import Segmented.Proofs.CheckedSort
import Segmented.Proofs.Rearrange

/-! Sorting, and storing at a new position, with every check that is made. Whatever lies in one run
of storage is sorted by a library that may stop when the order is none. -/

namespace Segmented

variable {σ α : Type}

/-! ### Sorting by a library -/

/-- Among the listed elements the order is a strict weak one. Of any two the library asks only
whether one is less than the other. -/
def Coherent (order : α → α → Ordering) (xs : List α) : Prop :=
  ∀ x ∈ xs, ∀ y ∈ xs, (order x y = .lt → order y x ≠ .lt) ∧
    ∀ z ∈ xs, order y x ≠ .lt → order z y ≠ .lt → order z x ≠ .lt

instance (order : α → α → Ordering) (xs : List α) : Decidable (Coherent order xs) :=
  inferInstanceAs (Decidable (∀ x ∈ xs, ∀ y ∈ xs, (order x y = .lt → order y x ≠ .lt) ∧
    ∀ z ∈ xs, order y x ≠ .lt → order z y ≠ .lt → order z x ≠ .lt))

theorem coherent (order : α → α → Ordering) [IsStrictWeakOrder α fun x y => order x y = .lt]
    (xs : List α) : Coherent order xs :=
  fun _ _ _ _ => ⟨Introsort.ne_lt_of_lt, fun _ _ => Introsort.ne_lt_trans⟩

/-- The library sorts what the order puts in order, and may stop where it does not. -/
def librarySort (order : α → α → Ordering) (xs : List α) : Except Fault (List α) :=
  if Coherent order xs then .ok (stableSort order xs) else .error .order

theorem librarySort_eq (order : α → α → Ordering)
    [IsStrictWeakOrder α fun x y => order x y = .lt] (xs : List α) :
    librarySort order xs = .ok (stableSort order xs) :=
  if_pos (coherent order xs)

namespace Sequence

variable [Allocator σ α]

def checkedSort (order : α → α → Ordering) (s : Sequence α) : Checked σ (Sequence α) := do
  match s.flat? with
  | some items =>
    let sorted ← librarySort order items.toList
    return (s.refill sorted.toArray).bump
  | none =>
    let (elements, emptied) ← Checked.lift s.takeAll
    Checked.lift (Depot.notify (.sortingRebuilt elements.length))
    let sorted ← librarySort order elements
    let rebuilt ← emptied.checkedExtend sorted
    return { rebuilt with version := s.version }.bump

def checkedSortUnstable (order : α → α → Ordering) (s : Sequence α) : Checked σ (Sequence α) := do
  match s.flat? with
  | some items =>
    let sorted ← librarySort order items.toList
    return (s.refill sorted.toArray).bump
  | none =>
    let sorted ← s.checkedIntrosort order
    return sorted.bump

def checkedPlaceAt [Inhabited α] (index : Nat) (x : α) (s : Sequence α) :
    Checked σ (Sequence α) := do
  if index < s.length then
    s.checkedModify index fun _ => x
  else
    let length ← Word.add 64 index 1
    let grown ← s.checkedEnsure length default
    grown.checkedModify index fun _ => x

/-! ### No fault -/

variable [LawfulAllocator σ α] {s : Sequence α}

open Checked (Agrees agrees_check agrees_lift agrees_pure)

namespace Valid

theorem agrees_checkedSort (valid : s.Valid) (small : s.length < 2 ^ 64)
    (order : α → α → Ordering) [IsStrictWeakOrder α fun x y => order x y = .lt] :
    Agrees (σ := σ) (s.checkedSort order) (s.sort order) := by
  unfold checkedSort sort sortRebuilt
  cases s.flat? with
  | some items =>
    dsimp only
    rw [librarySort_eq, liftM_ok_bind]
    exact agrees_pure _
  | none =>
    simp only [bind_assoc, pure_bind]
    apply (agrees_lift _).bind (ensures_takeAll s).keeps
    rintro ⟨elements, emptied⟩ ⟨same, follows⟩
    obtain rfl : elements = s.toList := same
    have notified : Depot.Keeps (σ := σ) (α := α)
        (Depot.notify (.sortingRebuilt s.toList.length)) fun _ => True :=
      fun _ sound => ⟨sound, trivial⟩
    refine (agrees_lift _).bind notified fun _ _ => ?_
    rw [librarySort_eq, liftM_ok_bind]
    refine (agrees_checkedExtend follows.valid ?_).map fun _ => rfl
    rw [follows.valid.length_eq, follows.elements, length_stableSort, ← valid.length_eq]
    exact (Nat.zero_add _).symm ▸ small

theorem agrees_checkedSortUnstable (valid : s.Valid) (small : s.length ≤ 2 ^ 63)
    (order : α → α → Ordering) [IsStrictWeakOrder α fun x y => order x y = .lt] :
    Agrees (σ := σ) (s.checkedSortUnstable order) (s.sortUnstable order) := by
  unfold checkedSortUnstable sortUnstable
  cases s.flat? with
  | some items =>
    dsimp only
    rw [librarySort_eq, liftM_ok_bind]
    exact agrees_pure _
  | none =>
    obtain ⟨sorted, done, checked⟩ := valid.checkedIntrosort_eq small order
    dsimp only
    rw [done, checked, liftM_ok_bind]
    exact agrees_pure _

theorem agrees_checkedPlaceAt [Inhabited α] (valid : s.Valid) (small : s.length < 2 ^ 64)
    {index : Nat} (small' : index + 1 < 2 ^ 64) (x : α) :
    Agrees (σ := σ) (s.checkedPlaceAt index x) (s.placeAt index x) := by
  unfold checkedPlaceAt placeAt
  split
  · rename_i inside
    rw [if_neg (Nat.not_le.mpr inside), pure_bind]
    exact agrees_check (valid.checkedModify_eq small index _)
  · rename_i beyond
    rw [if_pos (Nat.not_lt.mp beyond), countTo_of_lt small', Word.add_eq small', liftM_ok_bind]
    apply (agrees_checkedEnsure valid small' default).bind
      (ensures_ensure valid (index + 1) default).keeps
    intro grown done
    have length : grown.length = index + 1 := by
      rw [done.1.valid.length_eq, done.1.elements, List.length_append, List.length_replicate,
        ← valid.length_eq]
      omega
    exact agrees_check (done.1.valid.checkedModify_eq (by omega) index _)

end Valid

end Sequence

end Segmented
