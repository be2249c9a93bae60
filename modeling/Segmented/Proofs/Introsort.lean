import Segmented.Order.Introsort

/-! The sort in place never leaves its array: for every comparator, also an inconsistent one, it
ends with a permutation of what it was given. -/

namespace Segmented.Introsort

variable {α : Type} (order : α → α → Ordering) {v : Array α}

/-- The result is no error, and a permutation of `v`. -/
def Permutes (v : Array α) (result : Except Error (Array α)) : Prop :=
  ∃ w, result = .ok w ∧ w.Perm v

theorem Permutes.refl (v : Array α) : Permutes v (.ok v) := ⟨v, rfl, .refl v⟩

theorem Permutes.bind {result : Except Error (Array α)} {next : Array α → Except Error (Array α)}
    (first : Permutes v result) (second : ∀ w : Array α, w.size = v.size → Permutes w (next w)) :
    Permutes v (result >>= next) := by
  obtain ⟨w, rfl, permuted⟩ := first
  obtain ⟨u, done, permuted'⟩ := second w permuted.size_eq
  exact ⟨u, done, permuted'.trans permuted⟩

theorem precedes_ok {first second : Nat} (inside : first < v.size) (inside' : second < v.size) :
    ∃ answer, precedes order v first second = .ok answer := by
  simp [precedes, read, inside, inside', pure, Except.pure, bind, Except.bind]

theorem permutes_exchange {first second : Nat} (inside : first < v.size)
    (inside' : second < v.size) : Permutes v (exchange v first second) :=
  ⟨v.swap first second, dif_pos ⟨inside, inside'⟩, Array.swap_perm inside inside'⟩

/-! ### Insertion sort -/

theorem permutes_sink {start distance : Nat} (inside : start + distance < v.size) :
    Permutes v (sink order start distance v) := by
  induction distance generalizing v with
  | zero => exact .refl v
  | succ distance ih =>
    have later : start + distance + 1 < v.size := inside
    have earlier : start + distance < v.size := Nat.lt_of_succ_lt inside
    obtain ⟨answer, compared⟩ := precedes_ok order later earlier
    simp only [sink, compared]
    cases answer with
    | false => exact .refl v
    | true => exact (permutes_exchange later earlier).bind fun w same => ih (by omega)

theorem permutes_sinkAll {start distance count : Nat} (inside : start + distance + count ≤ v.size) :
    Permutes v (sinkAll order start distance count v) := by
  induction count generalizing distance v with
  | zero => exact .refl v
  | succ count ih => exact (permutes_sink order (by omega)).bind fun w same => ih (by omega)

theorem permutes_insertionSort {start stop : Nat} (inside : stop ≤ v.size) :
    Permutes v (insertionSort order start stop v) := by
  unfold insertionSort
  cases count : stop - start - 1 with
  | zero => exact .refl v
  | succ more => exact permutes_sinkAll order (by omega)

/-! ### Heapsort -/

/-- A node has a right child to prefer only within the heap. -/
theorem prefersRight_ok {start size left : Nat} (inside : start + size ≤ v.size)
    (within : left < size) :
    ∃ answer, prefersRight order start size left v = .ok answer ∧
      left + answer.toNat < size := by
  unfold prefersRight
  split
  · rename_i two
    have bound : start + left < v.size := by omega
    have bound' : start + left + 1 < v.size := by omega
    obtain ⟨answer, compared⟩ := precedes_ok order bound bound'
    have few := answer.toNat_le
    exact ⟨answer, compared, by omega⟩
  · exact ⟨false, rfl, within⟩

theorem permutes_siftDown {start size node : Nat} (inside : start + size ≤ v.size) :
    Permutes v (siftDown order start size node v) := by
  induction below : size - node using Nat.strongRecOn generalizing node v with
  | ind below ih =>
    rw [siftDown]
    dsimp only
    split
    · rename_i left
      obtain ⟨right, preferred, within⟩ := prefersRight_ok order inside left
      have parent : start + node < v.size := by omega
      have child : start + (2 * node + 1 + right.toNat) < v.size := by omega
      obtain ⟨answer, compared⟩ := precedes_ok order parent child
      rw [preferred]
      change Permutes v (precedes order v _ _ >>= _)
      rw [compared]
      cases answer with
      | false => exact .refl v
      | true =>
        apply (permutes_exchange parent child).bind
        intro w same
        exact ih (size - (2 * node + 1 + right.toNat)) (by omega) (by omega) rfl
    · exact .refl v

theorem permutes_buildHeap {start size count : Nat} (inside : start + size ≤ v.size) :
    Permutes v (buildHeap order start size count v) := by
  induction count generalizing v with
  | zero => exact .refl v
  | succ count ih => exact (permutes_siftDown order inside).bind fun w same => ih (by omega)

theorem permutes_emptyHeap {start count : Nat} (inside : start + count < v.size) :
    Permutes v (emptyHeap order start count v) := by
  induction count generalizing v with
  | zero => exact .refl v
  | succ count ih =>
    exact (permutes_exchange (by omega) (by omega)).bind fun w same =>
      (permutes_siftDown order (by omega)).bind fun u same' => ih (by omega)

theorem permutes_heapsort {start stop : Nat} (nonempty : start < stop) (inside : stop ≤ v.size) :
    Permutes v (heapsort order start stop v) :=
  (permutes_buildHeap order (by omega)).bind fun w same => permutes_emptyHeap order (by omega)

/-! ### Quicksort -/

theorem medianOfThree_ok {a b c : Nat} (first : a < v.size) (second : b < v.size)
    (third : c < v.size) :
    ∃ median, medianOfThree order v a b c = .ok median ∧ median < v.size := by
  obtain ⟨ab, compared⟩ := precedes_ok order first second
  obtain ⟨bc, compared'⟩ := precedes_ok order second third
  obtain ⟨ac, compared''⟩ := precedes_ok order first third
  simp only [medianOfThree, compared, compared', compared'', bind, Except.bind, pure, Except.pure]
  cases ab <;> cases bc <;> cases ac <;> simp [first, second, third]

theorem partitionAround_ok {pivot left right : Nat} (positive : 0 < left)
    (inside : right < v.size) (within : pivot < v.size) :
    ∃ middle w, partitionAround order pivot left right v = .ok (middle, w) ∧ w.Perm v ∧
      min (left - 1) right ≤ middle ∧ middle ≤ right := by
  induction width : right + 1 - left using Nat.strongRecOn generalizing left right v with
  | ind width ih =>
    rw [partitionAround.eq_def]
    split
    · rename_i nonempty
      have here : left < v.size := Nat.lt_of_le_of_lt nonempty inside
      obtain ⟨before, compared⟩ := precedes_ok order here within
      rw [compared]
      cases before with
      | true =>
        obtain ⟨middle, w, done, permuted, low, high⟩ :=
          ih (right + 1 - (left + 1)) (by omega) (by omega) inside within rfl
        exact ⟨middle, w, done, permuted, by omega, high⟩
      | false =>
        obtain ⟨below, rfl⟩ : ∃ below, right = below + 1 := ⟨right - 1, by omega⟩
        obtain ⟨after, compared'⟩ := precedes_ok order inside within
        change ∃ middle w, (precedes order v (below + 1) pivot >>= _) = _ ∧ _
        rw [compared']
        cases after with
        | true =>
          obtain ⟨u, exchanged, permuted⟩ := permutes_exchange here inside
          have same := permuted.size_eq
          have positive' : 0 < left + 1 := Nat.succ_pos left
          have inside' : below < u.size := by omega
          have within' : pivot < u.size := by omega
          obtain ⟨middle, w, done, permuted', low, high⟩ :=
            ih (below + 1 - (left + 1)) (by omega) positive' inside' within' rfl
          change ∃ middle w, (exchange v left (below + 1) >>= _) = _ ∧ _
          rw [exchanged]
          exact ⟨middle, w, done, permuted'.trans permuted, by omega, by omega⟩
        | false =>
          have inside' : below < v.size := Nat.lt_of_succ_lt inside
          obtain ⟨middle, w, done, permuted, low, high⟩ :=
            ih (below + 1 - left) (by omega) positive inside' within rfl
          exact ⟨middle, w, done, permuted, by omega, by omega⟩
    · exact ⟨right, v, rfl, .refl v, by omega, by omega⟩

theorem partition_ok {start stop : Nat} (inside : stop ≤ v.size) (several : start + 1 < stop) :
    ∃ middle w, partition order start stop v = .ok (middle, w) ∧ w.Perm v ∧ start ≤ middle ∧
      middle < stop := by
  have last : stop - 1 < v.size := by omega
  have first : start < v.size := by omega
  obtain ⟨middle, u, done, permuted, low, high⟩ :=
    partitionAround_ok order (Nat.succ_pos start) last first
  have same := permuted.size_eq
  have first' : start < u.size := by omega
  have between : middle < u.size := by omega
  obtain ⟨w, exchanged, permuted'⟩ := permutes_exchange first' between
  refine ⟨middle, w, ?_, permuted'.trans permuted, by omega, by omega⟩
  simp only [partition, done, exchanged, bind, Except.bind, pure, Except.pure]

theorem permutes_sortRange {rounds start stop : Nat} (inside : stop ≤ v.size) :
    Permutes v (sortRange order rounds start stop v) := by
  induction rounds generalizing start stop v with
  | zero =>
    unfold sortRange
    split
    · exact permutes_insertionSort order inside
    · rename_i long
      unfold insertionLimit at long
      exact permutes_heapsort order (by omega) inside
  | succ rounds ih =>
    unfold sortRange
    split
    · exact permutes_insertionSort order inside
    · rename_i long
      unfold insertionLimit at long
      have first : start < v.size := by omega
      have between : start + (stop - start) / 2 < v.size := by omega
      have last : stop - 1 < v.size := by omega
      obtain ⟨pivot, found, within⟩ := medianOfThree_ok order first between last
      change Permutes v (medianOfThree order v _ _ _ >>= _)
      rw [found]
      apply (permutes_exchange first within).bind
      intro u same
      have inside' : stop ≤ u.size := by omega
      have several : start + 1 < stop := by omega
      obtain ⟨middle, w, done, permuted, low, high⟩ := partition_ok order inside' several
      have same' := permuted.size_eq
      have sorted : Permutes w (if middle - start < stop - middle - 1 then do
            let v ← sortRange order rounds start middle w
            sortRange order rounds (middle + 1) stop v
          else do
            let v ← sortRange order rounds (middle + 1) stop w
            sortRange order rounds start middle v) := by
        split
        · exact (ih (by omega)).bind fun x same'' => ih (by omega)
        · exact (ih (by omega)).bind fun x same'' => ih (by omega)
      obtain ⟨x, finished, permuted'⟩ := sorted
      refine ⟨x, ?_, permuted'.trans permuted⟩
      rw [done]
      exact finished

/-- Sorting in place always succeeds with the same elements. -/
theorem permutes_sort (v : Array α) : Permutes v (sort order v) := by
  unfold sort
  split
  · exact .refl v
  · exact permutes_sortRange order (Nat.le_refl _)

end Segmented.Introsort
