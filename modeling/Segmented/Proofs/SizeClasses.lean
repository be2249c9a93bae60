import Mathlib.Algebra.BigOperators.Group.Finset.Basic
import Mathlib.Order.Bounds.Basic
import Segmented.Allocator.Pool

/-! Every history of a pool. Whatever was lent and given back before, also buffers from elsewhere
and with elements left in them, a class holds buffers of its own sizes and no more than the limit,
so rounding a request up and a returned buffer down never meet in a buffer that is too small. -/

namespace Segmented.Pool

variable {α : Type}

/-- One call on a pool. -/
inductive Call (α : Type) where
  | rent (asked : Nat)
  | release (buffer : Buffer α) (clear : Bool)

/-- The pool after a call. -/
def step (pool : Pool α) : Call α → Pool α
  | .rent asked => (pool.rent asked).2
  | .release buffer clear => pool.release buffer clear

/-- The pool after a history of calls. -/
def run (pool : Pool α) (history : List (Call α)) : Pool α := history.foldl step pool

/-- The buffers that wait in a class, the next one to be lent first. -/
def waiting (k : Nat) (pool : Pool α) : List (Buffer α) := pool.classes[k]?.getD []

/-- The call puts a buffer into a class: it returns storage, and the class has room. -/
def Call.Stores (pool : Pool α) : Call α → Prop
  | .rent _ => False
  | .release buffer _ =>
    buffer.capacity ≠ 0 ∧ (pool.waiting (classOf buffer)).length < pool.limit

/-- The call takes a buffer out of a class: it asks for elements, the request is rounded up to a
class, and a buffer waits there. -/
def Call.Takes (pool : Pool α) : Call α → Prop
  | .rent asked =>
    asked ≠ 0 ∧ asked ≤ largestRounded ∧ pool.waiting (classFor asked) ≠ []
  | .release _ _ => False

/-! ### The two roundings -/

theorem classFor_le {asked exponent : Nat} (fits : asked ≤ 2 ^ exponent) :
    classFor asked ≤ exponent := by
  by_cases none : asked = 0
  · subst none
    exact Nat.zero_le exponent
  · apply Nat.le_of_lt_succ
    apply (Nat.log2_lt (by omega)).mpr
    rw [Nat.pow_succ]
    omega

/-- A request is rounded up to the least power of two that has room for it. -/
theorem isLeast_classFor (asked : Nat) :
    IsLeast {power | power.isPowerOfTwo ∧ asked ≤ power} (2 ^ classFor asked) := by
  constructor
  · exact ⟨⟨_, rfl⟩, Nat.one_shiftLeft (classFor asked) ▸ le_shiftLeft_classFor asked⟩
  · rintro power ⟨⟨exponent, rfl⟩, fits⟩
    exact Nat.pow_le_pow_right (by decide) (classFor_le fits)

/-- A returned buffer is rounded down to the only class of its capacity. -/
theorem mem_class_iff {buffer : Buffer α} {k : Nat} :
    2 ^ k ≤ buffer.capacity ∧ buffer.capacity < 2 ^ (k + 1) ↔
      buffer.capacity ≠ 0 ∧ classOf buffer = k := by
  constructor
  · rintro ⟨least, below⟩
    have stored : buffer.capacity ≠ 0 :=
      Nat.ne_zero_of_lt (Nat.lt_of_lt_of_le (Nat.two_pow_pos k) least)
    exact ⟨stored, (Nat.log2_eq_iff stored).mpr ⟨least, below⟩⟩
  · rintro ⟨stored, same⟩
    exact (Nat.log2_eq_iff stored).mp same

/-! ### What one call does to the classes -/

theorem waiting_of_getElem? {pool : Pool α} {k : Nat} {kept : List (Buffer α)}
    (found : pool.classes[k]? = some kept) : pool.waiting k = kept := by
  simp [waiting, found]

theorem waiting_setIfInBounds {pool : Pool α} {k : Nat} (rest : List (Buffer α))
    (present : k < pool.classes.size) (j : Nat) :
    waiting j { pool with classes := pool.classes.setIfInBounds k rest } =
      if k = j then rest else pool.waiting j := by
  by_cases same : k = j
  · subst same
    simp [waiting, present]
  · simp [waiting, same]

theorem waiting_classesThrough (k j : Nat) (pool : Pool α) :
    ((classesThrough k pool.classes)[j]?).getD [] = pool.waiting j := by
  rw [classesThrough, Array.getElem?_append]
  by_cases old : j < pool.classes.size
  · simp [waiting, old]
  · by_cases added : j - pool.classes.size < k + 1 - pool.classes.size
      <;> simp [waiting, old, added]

theorem waiting_keep (buffer : Buffer α) (pool : Pool α) (j : Nat) :
    (pool.keep buffer).waiting j =
      if classOf buffer = j ∧ (pool.waiting j).length < pool.limit then buffer :: pool.waiting j
      else pool.waiting j := by
  have present : classOf buffer < (classesThrough (classOf buffer) pool.classes).size := by
    simp only [classesThrough, Array.size_append, Array.size_replicate]
    omega
  have contents := waiting_classesThrough (classOf buffer) j pool
  simp only [waiting, keep, Array.getElem?_modify] at contents ⊢
  by_cases same : classOf buffer = j
  · subst same
    rw [Array.getElem?_eq_getElem present, Option.getD_some] at contents
    simp [present, contents]
  · simpa [same] using contents

theorem waiting_release {buffer : Buffer α} (stored : buffer.capacity ≠ 0) (clear : Bool)
    (pool : Pool α) (j : Nat) :
    (pool.release buffer clear).waiting j =
      if classOf buffer = j ∧ (pool.waiting j).length < pool.limit then
        (if clear then buffer.cleared else buffer) :: pool.waiting j
      else pool.waiting j := by
  have same_class : classOf (if clear then buffer.cleared else buffer) = classOf buffer := by
    cases clear <;> rfl
  rw [release, if_neg stored, waiting_keep, same_class]

theorem rent_of_takes {asked : Nat} {pool : Pool α} (takes : (Call.rent asked).Takes pool) :
    ∃ kept rest, pool.waiting (classFor asked) = kept :: rest ∧
      pool.rent asked = (kept.cleared,
        { pool with classes := pool.classes.setIfInBounds (classFor asked) rest }) := by
  rcases takes with ⟨some, rounded, nonempty⟩
  cases found : pool.classes[classFor asked]? with
  | none => simp [waiting, found] at nonempty
  | some contents =>
    cases contents with
    | nil => simp [waiting, found] at nonempty
    | cons kept rest =>
      refine ⟨kept, rest, waiting_of_getElem? found, ?_⟩
      simp [rent, some, Nat.not_lt.mpr rounded, found]

/-- The capacity of fresh storage: the size of the class of the request, if it has a class. -/
def freshCapacity (asked : Nat) : Nat :=
  if asked = 0 ∨ largestRounded < asked then asked else 2 ^ classFor asked

theorem rent_of_not_takes {asked : Nat} {pool : Pool α}
    (misses : ¬ (Call.rent asked).Takes pool) :
    pool.rent asked = (.ofCapacity (freshCapacity asked), pool) := by
  by_cases none : asked = 0
  · simp [rent, freshCapacity, none]
  by_cases large : largestRounded < asked
  · simp [rent, freshCapacity, none, large]
  have idle : pool.waiting (classFor asked) = [] := by
    apply Classical.byContradiction
    intro nonempty
    exact misses ⟨none, Nat.not_lt.mp large, nonempty⟩
  cases found : pool.classes[classFor asked]? with
  | none => simp [rent, freshCapacity, none, large, found, Nat.one_shiftLeft]
  | some contents =>
    obtain rfl : contents = [] := (waiting_of_getElem? found).symm.trans idle
    simp [rent, freshCapacity, none, large, found, Nat.one_shiftLeft]

@[simp] theorem limit_step (pool : Pool α) (call : Call α) :
    (pool.step call).limit = pool.limit := by
  cases call with
  | rent asked =>
    by_cases takes : (Call.rent asked).Takes pool
    · obtain ⟨kept, rest, -, result⟩ := rent_of_takes takes
      rw [step, result]
    · rw [step, rent_of_not_takes takes]
  | release buffer clear =>
    by_cases bare : buffer.capacity = 0 <;> simp [step, release, bare, keep]

/-! ### The number of kept buffers -/

theorem foldl_length (classes : List (List (Buffer α))) (counted : Nat) {bound : Nat}
    (covers : classes.length ≤ bound) :
    classes.foldl (fun count kept => count + kept.length) counted =
      counted + ∑ k ∈ Finset.range bound, (classes[k]?.getD []).length := by
  induction classes generalizing counted bound with
  | nil => simp
  | cons kept rest ih =>
    cases bound with
    | zero => simp at covers
    | succ bound =>
      rw [List.foldl_cons, ih _ (Nat.le_of_succ_le_succ covers), Finset.sum_range_succ',
        Nat.add_assoc, Nat.add_comm kept.length]
      rfl

theorem retained_eq_sum {pool : Pool α} {bound : Nat} (covers : pool.classes.size ≤ bound) :
    pool.retained = ∑ k ∈ Finset.range bound, (pool.waiting k).length := by
  rw [retained, ← Array.foldl_toList, foldl_length pool.classes.toList 0 (by simpa using covers)]
  simp [waiting]

/-- Where one class changes, the number of kept buffers changes with it. -/
theorem retained_add (before after : Pool α) (k : Nat)
    (same : ∀ j, j ≠ k → after.waiting j = before.waiting j) :
    after.retained + (before.waiting k).length = before.retained + (after.waiting k).length := by
  -- Both sums run over the classes of either pool, and differ at class `k` alone.
  let bound := before.classes.size + after.classes.size + k + 1
  have inside : k ∈ Finset.range bound := Finset.mem_range.mpr (by omega)
  have others : ∑ j ∈ (Finset.range bound).erase k, (after.waiting j).length =
      ∑ j ∈ (Finset.range bound).erase k, (before.waiting j).length := by
    apply Finset.sum_congr rfl
    intro j member
    rw [same j (Finset.ne_of_mem_erase member)]
  have total := Finset.add_sum_erase _ (fun j => (before.waiting j).length) inside
  have final := Finset.add_sum_erase _ (fun j => (after.waiting j).length) inside
  rw [retained_eq_sum (show before.classes.size ≤ bound by omega),
    retained_eq_sum (show after.classes.size ≤ bound by omega)]
  omega

theorem retained_of_takes {pool : Pool α} {call : Call α} (takes : call.Takes pool) :
    (pool.step call).retained + 1 = pool.retained := by
  cases call with
  | release buffer clear => exact takes.elim
  | rent asked =>
    obtain ⟨kept, rest, contents, result⟩ := rent_of_takes takes
    have present : classFor asked < pool.classes.size := by
      apply Nat.lt_of_not_le
      intro beyond
      simp [waiting, beyond] at contents
    have after := waiting_setIfInBounds rest present
    have change := retained_add pool (pool.rent asked).2 (classFor asked) <| by
      intro j other
      rw [result, after, if_neg (Ne.symm other)]
    rw [result, after, if_pos rfl, contents, List.length_cons] at change
    rw [step, result]
    omega

theorem retained_of_stores {pool : Pool α} {call : Call α} (stores : call.Stores pool) :
    (pool.step call).retained = pool.retained + 1 := by
  cases call with
  | rent asked => exact stores.elim
  | release buffer clear =>
    rcases stores with ⟨stored, room⟩
    have after := waiting_release stored clear pool
    have change := retained_add pool (pool.release buffer clear) (classOf buffer) <| by
      intro j other
      rw [after, if_neg (fun both => other both.1.symm)]
    rw [after, if_pos ⟨rfl, room⟩, List.length_cons] at change
    rw [step]
    omega

theorem retained_of_neither {pool : Pool α} {call : Call α} (passes : ¬ call.Stores pool)
    (misses : ¬ call.Takes pool) : (pool.step call).retained = pool.retained := by
  cases call with
  | rent asked => rw [step, rent_of_not_takes misses]
  | release buffer clear =>
    by_cases bare : buffer.capacity = 0
    · simp [step, release, bare]
    have after : ∀ j, (pool.release buffer clear).waiting j = pool.waiting j := by
      intro j
      rw [waiting_release bare, if_neg]
      rintro ⟨rfl, room⟩
      exact passes ⟨bare, room⟩
    have change := retained_add pool (pool.release buffer clear) 0 fun j _ => after j
    rw [after] at change
    exact Nat.add_right_cancel change

theorem Call.not_takes_of_stores {pool : Pool α} {call : Call α} (stores : call.Stores pool) :
    ¬ call.Takes pool := by
  cases call with
  | rent asked => exact stores.elim
  | release buffer clear => exact not_false

/-- The number of kept buffers goes up by one, down by one or stays, as the call decides. -/
theorem retained_step (pool : Pool α) (call : Call α) :
    ((pool.step call).retained = pool.retained + 1 ↔ call.Stores pool) ∧
    ((pool.step call).retained + 1 = pool.retained ↔ call.Takes pool) ∧
    (¬ call.Stores pool → ¬ call.Takes pool → (pool.step call).retained = pool.retained) := by
  by_cases stores : call.Stores pool
  · have grown := retained_of_stores stores
    have misses := Call.not_takes_of_stores stores
    exact ⟨iff_of_true grown stores, iff_of_false (by omega) misses,
      fun passes => absurd stores passes⟩
  by_cases takes : call.Takes pool
  · have shrunk := retained_of_takes takes
    exact ⟨iff_of_false (by omega) stores, iff_of_true shrunk takes,
      fun _ misses => absurd takes misses⟩
  · have same := retained_of_neither stores takes
    exact ⟨iff_of_false (by omega) stores, iff_of_false (by omega) takes, fun _ _ => same⟩

/-! ### Whole histories -/

theorem sorted_step (call : Call α) {pool : Pool α} (sorted : pool.Sorted) :
    (pool.step call).Sorted := by
  cases call with
  | rent asked => exact sorted_rent asked sorted
  | release buffer clear => exact sorted_release buffer clear sorted

theorem sorted_run (history : List (Call α)) {pool : Pool α} (sorted : pool.Sorted) :
    (pool.run history).Sorted := by
  induction history generalizing pool with
  | nil => exact sorted
  | cons call rest ih => exact ih (sorted_step call sorted)

@[simp] theorem limit_run (history : List (Call α)) (pool : Pool α) :
    (pool.run history).limit = pool.limit := by
  induction history generalizing pool with
  | nil => rfl
  | cons call rest ih => exact (ih (pool.step call)).trans (limit_step pool call)

theorem sizes_of_sorted {pool : Pool α} (sorted : pool.Sorted) (k : Nat) :
    (pool.waiting k).length ≤ pool.limit ∧ ∀ buffer ∈ pool.waiting k,
      2 ^ k ≤ buffer.capacity ∧ buffer.capacity < 2 ^ (k + 1) := by
  cases found : pool.classes[k]? with
  | none => simp [waiting, found]
  | some kept =>
    rw [waiting_of_getElem? found]
    rcases sorted k kept found with ⟨few, sizes⟩
    exact ⟨few, fun buffer member => mem_class_iff.mpr (sizes buffer member)⟩

/-- After every history a pool keeps at most its limit of buffers in each class, all of sizes of
the class, its next loan is empty and large enough, a reused buffer is below twice the least power
of two for the request, and the number of kept buffers changes by one exactly where a call puts a
buffer into a class or takes one out. -/
theorem classes_fit_after_every_history (limit : Nat) (history : List (Call α)) :
    let pool := run { limit := limit } history
    (∀ k, (pool.waiting k).length ≤ limit ∧ ∀ buffer ∈ pool.waiting k,
      2 ^ k ≤ buffer.capacity ∧ buffer.capacity < 2 ^ (k + 1)) ∧
    (∀ asked, (pool.rent asked).1.items = #[] ∧ asked ≤ (pool.rent asked).1.capacity) ∧
    (∀ asked, (Call.rent asked).Takes pool →
      (∃ kept ∈ pool.waiting (classFor asked), (pool.rent asked).1 = kept.cleared) ∧
      ∀ power : Nat, power.isPowerOfTwo → asked ≤ power →
        (pool.rent asked).1.capacity < 2 * power) ∧
    (∀ asked, ¬ (Call.rent asked).Takes pool →
      (pool.rent asked).1 = .ofCapacity (freshCapacity asked)) ∧
    (∀ call : Call α,
      ((pool.step call).retained = pool.retained + 1 ↔ call.Stores pool) ∧
      ((pool.step call).retained + 1 = pool.retained ↔ call.Takes pool) ∧
      (¬ call.Stores pool → ¬ call.Takes pool → (pool.step call).retained = pool.retained)) := by
  intro pool
  have sorted : pool.Sorted := sorted_run history (sorted_empty limit)
  have limited : pool.limit = limit := limit_run history _
  have sizes := sizes_of_sorted sorted
  refine ⟨fun k => limited ▸ sizes k, ?loans, ?reused, ?fresh, retained_step pool⟩
  case loans =>
    intro asked
    exact ⟨items_rent asked pool, le_capacity_rent asked sorted⟩
  case reused =>
    intro asked takes
    obtain ⟨kept, rest, contents, result⟩ := rent_of_takes takes
    have member : kept ∈ pool.waiting (classFor asked) := by simp [contents]
    refine ⟨⟨kept, member, by rw [result]⟩, ?_⟩
    intro power binary fits
    calc (pool.rent asked).1.capacity
      _ = kept.capacity := by rw [result]; rfl
      _ < 2 ^ (classFor asked + 1) := ((sizes _).2 kept member).2
      _ = 2 * 2 ^ classFor asked := Nat.pow_succ'
      _ ≤ 2 * power := Nat.mul_le_mul_left 2 ((isLeast_classFor asked).2 ⟨binary, fits⟩)
  case fresh =>
    intro asked misses
    rw [rent_of_not_takes misses]

/-- A buffer of odd size from elsewhere that still holds two elements. -/
def foreign : Buffer Nat := { items := #[1, 2], capacity := 12 }

/-- The foreign buffer waits in the class below its capacity and is lent again for a request of
that class; a second one finds the class full. -/
theorem classes_fit_after_foreign_buffers :
    let pool := run { limit := 1 } [.release foreign false, .release foreign true]
    pool.retained = 1 ∧ (pool.rent 5).1.items = #[] ∧ (pool.rent 5).1.capacity < 2 * 8 ∧
      (pool.step (.rent 5)).retained + 1 = pool.retained := by
  dsimp only
  obtain ⟨-, loans, reused, -, counts⟩ :=
    classes_fit_after_every_history 1 [.release foreign false, .release foreign true]
  have takes : (Call.rent 5).Takes
      (run { limit := 1 } [.release foreign false, .release foreign true]) :=
    ⟨by decide, by decide, by decide⟩
  exact ⟨by decide, (loans 5).1, (reused 5 takes).2 8 ⟨3, rfl⟩ (by decide),
    (counts (.rent 5)).2.1.mpr takes⟩

end Segmented.Pool
