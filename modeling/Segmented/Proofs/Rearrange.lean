import Mathlib.Order.Defs.Unbundled
import Segmented.Proofs.Introsort

/-! What a sort in place does to a range of an array: the elements of the range move among
themselves, and all others stay. Insertion sort leaves the range in order. -/

namespace Segmented.Introsort

variable {α : Type} {order : α → α → Ordering} {v w u : Array α}

/-! ### Positions in order -/

/-- What lies at `first` may stand before what lies at `second`. -/
def InOrder (order : α → α → Ordering) (v : Array α) (first second : Nat) : Prop :=
  ∀ x ∈ v[first]?, ∀ y ∈ v[second]?, order y x ≠ .lt

/-- In the range from `start` below `stop`, what lies at `low` or later may stand after all that
lies before it. -/
def SortedFrom (order : α → α → Ordering) (start low stop : Nat) (v : Array α) : Prop :=
  ∀ i j, start ≤ i → i < j → low ≤ j → j < stop → InOrder order v i j

theorem InOrder.congr {i j k l : Nat} (ordered : InOrder order v k l) (first : w[i]? = v[k]?)
    (second : w[j]? = v[l]?) : InOrder order w i j := by
  unfold InOrder
  rw [first, second]
  exact ordered

theorem mem_of_read {index : Nat} {x : α} (here : read v index = .ok x) : x ∈ v[index]? := by
  unfold read at here
  split at here
  · rename_i found
    cases here
    exact found
  · cases here

theorem exists_of_precedes {first second : Nat} {answer : Bool}
    (compared : precedes order v first second = .ok answer) :
    ∃ x ∈ v[first]?, ∃ y ∈ v[second]?, answer = (order x y == .lt) := by
  obtain ⟨x, here, rest⟩ := exists_of_bind compared
  obtain ⟨y, there, same⟩ := exists_of_bind rest
  cases same
  exact ⟨x, mem_of_read here, y, mem_of_read there, rfl⟩

theorem inOrder_of_not_precedes {first second : Nat}
    (compared : precedes order v first second = .ok false) : InOrder order v second first := by
  intro y there x here
  obtain ⟨x', here', y', there', answer⟩ := exists_of_precedes compared
  cases here.symm.trans here'
  cases there.symm.trans there'
  exact beq_eq_false_iff_ne.mp answer.symm

/-- A comparator that is coherent in all its answers is a strict weak order. -/
instance strictWeakOrder_of_transCmp [Std.TransCmp order] :
    IsStrictWeakOrder α fun x y => order x y = .lt where
  irrefl x before := by simp [Std.ReflCmp.compare_self] at before
  trans _ _ _ before before' := Std.TransCmp.lt_trans before before'
  incomp_trans x y z level level' := by
    simp only [← ne_eq, ← Ordering.isGE_iff_ne_lt] at level level' ⊢
    exact ⟨Std.TransCmp.isGE_trans level.1 level'.1, Std.TransCmp.isGE_trans level'.2 level.2⟩

section

variable [weak : IsStrictWeakOrder α fun x y => order x y = .lt]

include weak

theorem ne_lt_of_lt {x y : α} (before : order x y = .lt) : order y x ≠ .lt :=
  fun before' => weak.irrefl x (weak.trans _ _ _ before before')

theorem ne_lt_trans {x y z : α} (first : order y x ≠ .lt) (second : order z y ≠ .lt) :
    order z x ≠ .lt := by
  intro before
  have level : order x y ≠ .lt := fun before' => second (weak.trans _ _ _ before before')
  have level' : order y z ≠ .lt := fun before' => first (weak.trans _ _ _ before' before)
  exact (weak.incomp_trans x y z ⟨level, first⟩ ⟨level', second⟩).2 before

theorem InOrder.trans {i j k : Nat} (inside : j < v.size) (first : InOrder order v i j)
    (second : InOrder order v j k) : InOrder order v i k := by
  intro x here z there
  have between : v[j] ∈ v[j]? := Array.getElem?_eq_getElem inside
  exact ne_lt_trans (first x here _ between) (second _ between z there)

theorem inOrder_self (v : Array α) (i : Nat) : InOrder order v i i := by
  intro x here y there
  cases here.symm.trans there
  exact weak.irrefl x

theorem inOrder_of_precedes {first second : Nat}
    (compared : precedes order v first second = .ok true) : InOrder order v first second := by
  intro x here y there
  obtain ⟨x', here', y', there', answer⟩ := exists_of_precedes compared
  cases here.symm.trans here'
  cases there.symm.trans there'
  exact ne_lt_of_lt (beq_iff_eq.mp answer.symm)

end

/-! ### Rearranged ranges -/

/-- `w` is `v` with the elements of the range from `start` below `stop` moved among themselves. -/
structure Rearranges (start stop : Nat) (v w : Array α) : Prop where
  permuted : w.Perm v
  outside : ∀ i, i < start ∨ stop ≤ i → w[i]? = v[i]?
  inside : ∀ i, start ≤ i → i < stop → ∃ k, start ≤ k ∧ k < stop ∧ w[i]? = v[k]?

namespace Rearranges

variable {start stop low high : Nat}

theorem refl (start stop : Nat) (v : Array α) : Rearranges start stop v v where
  permuted := .refl v
  outside _ _ := rfl
  inside i first last := ⟨i, first, last, rfl⟩

theorem trans (first : Rearranges start stop v w) (second : Rearranges start stop w u) :
    Rearranges start stop v u where
  permuted := second.permuted.trans first.permuted
  outside i out := (second.outside i out).trans (first.outside i out)
  inside i low high := by
    obtain ⟨k, low', high', same⟩ := second.inside i low high
    obtain ⟨l, low'', high'', same'⟩ := first.inside k low' high'
    exact ⟨l, low'', high'', same.trans same'⟩

theorem widen (moved : Rearranges start stop v w) (below : low ≤ start) (above : stop ≤ high) :
    Rearranges low high v w where
  permuted := moved.permuted
  outside i out := moved.outside i (by omega)
  inside i first last := by
    by_cases within : start ≤ i ∧ i < stop
    · obtain ⟨k, first', last', same⟩ := moved.inside i within.1 within.2
      exact ⟨k, by omega, by omega, same⟩
    · exact ⟨i, first, last, moved.outside i (by omega)⟩

theorem size_eq (moved : Rearranges start stop v w) : w.size = v.size := moved.permuted.size_eq

/-- What stands after a whole range does not depend on the order within the range. -/
theorem sortedFrom (moved : Rearranges low high v w) (below : start ≤ low) {from_ : Nat}
    (above : high ≤ from_) (sorted : SortedFrom order start from_ stop v) :
    SortedFrom order start from_ stop w := by
  intro i j first before late last
  have same : w[j]? = v[j]? := moved.outside j (by omega)
  by_cases within : low ≤ i ∧ i < high
  · obtain ⟨k, first', last', same'⟩ := moved.inside i within.1 within.2
    exact (sorted k j (by omega) (by omega) late last).congr same' same
  · exact (sorted i j first before late last).congr (moved.outside i (by omega)) same

/-- A range that nothing moves in keeps its order. -/
theorem sorted_apart (moved : Rearranges low high v w) (apart : stop ≤ low ∨ high ≤ start)
    (sorted : SortedFrom order start start stop v) : SortedFrom order start start stop w := by
  intro i j first before late last
  have same : w[i]? = v[i]? := moved.outside i (by omega)
  have same' : w[j]? = v[j]? := moved.outside j (by omega)
  exact (sorted i j first before late last).congr same same'

end Rearranges

/-- `w` is `v` with what lies at two positions exchanged. -/
structure Exchanged (first second : Nat) (v w : Array α) : Prop where
  permuted : w.Perm v
  atFirst : w[first]? = v[second]?
  atSecond : w[second]? = v[first]?
  elsewhere : ∀ k, k ≠ first → k ≠ second → w[k]? = v[k]?

theorem exchanged_of_ok {first second : Nat} (done : exchange v first second = .ok w) :
    Exchanged first second v w := by
  unfold exchange at done
  split at done
  · rename_i inside
    cases done
    refine ⟨Array.swap_perm inside.1 inside.2, ?_, ?_, ?_⟩
    · rw [Array.getElem?_swap]
      split
      · rename_i same
        subst same
        simp
      · simp
    · rw [Array.getElem?_swap]
      simp
    · intro k away away'
      rw [Array.getElem?_swap, if_neg (Ne.symm away'), if_neg (Ne.symm away)]
  · cases done

theorem Exchanged.rearranges {first second start stop : Nat}
    (exchanged : Exchanged first second v w) (below : start ≤ first) (above : first < stop)
    (below' : start ≤ second) (above' : second < stop) : Rearranges start stop v w where
  permuted := exchanged.permuted
  outside i out := exchanged.elsewhere i (by omega) (by omega)
  inside i low high := by
    by_cases here : i = first
    · exact ⟨second, below', above', here ▸ exchanged.atFirst⟩
    · by_cases there : i = second
      · exact ⟨first, below, above, there ▸ exchanged.atSecond⟩
      · exact ⟨i, low, high, exchanged.elsewhere i here there⟩

/-- Moves the elements of a range among themselves until they are in order. -/
structure Sorts (order : α → α → Ordering) (start stop : Nat) (v w : Array α) : Prop where
  rearranges : Rearranges start stop v w
  sorted : SortedFrom order start start stop w

/-! ### Insertion sort -/

section

variable [weak : IsStrictWeakOrder α fun x y => order x y = .lt]

/-- The range is in order but for the element at `hole`, which may belong before some of those
that it follows. -/
def SortedBut (order : α → α → Ordering) (start stop hole : Nat) (v : Array α) : Prop :=
  ∀ i j, start ≤ i → i < j → j < stop → j ≠ hole → InOrder order v i j

include weak

theorem SortedBut.sink {start stop hole : Nat} (but : SortedBut order start stop (hole + 1) v)
    (low : start ≤ hole) (high : hole + 1 < stop)
    (compared : precedes order v (hole + 1) hole = .ok true)
    (exchanged : Exchanged (hole + 1) hole v w) : SortedBut order start stop hole w := by
  intro i j first before last away
  have elsewhere := exchanged.elsewhere
  by_cases lower : j = hole + 1
  · subst lower
    by_cases upper : i = hole
    · subst upper
      exact (inOrder_of_precedes compared).congr exchanged.atSecond exchanged.atFirst
    · exact (but i hole first (by omega) (by omega) (by omega)).congr
        (elsewhere i (by omega) upper) exchanged.atFirst
  · have there : w[j]? = v[j]? := elsewhere j lower away
    by_cases upper : i = hole
    · subst upper
      exact (but (i + 1) j (by omega) (by omega) last lower).congr exchanged.atSecond there
    · by_cases here : i = hole + 1
      · subst here
        exact (but hole j low (by omega) last lower).congr exchanged.atFirst there
      · exact (but i j first before last lower).congr (elsewhere i here upper) there

theorem SortedBut.finish {start stop hole : Nat} (but : SortedBut order start stop (hole + 1) v)
    (inside : hole < v.size) (compared : precedes order v (hole + 1) hole = .ok false) :
    SortedFrom order start start stop v := by
  intro i j first before _ last
  have ordered := inOrder_of_not_precedes compared
  by_cases here : j = hole + 1
  · subst here
    by_cases upper : i = hole
    · exact upper ▸ ordered
    · exact (but i hole first (by omega) (by omega) (by omega)).trans inside ordered
  · exact but i j first before last here

/-- Sinking the one element out of order puts the whole range in order. -/
theorem sorts_sink {start stop distance : Nat} (within : start + distance < stop)
    (inside : stop ≤ v.size) (but : SortedBut order start stop (start + distance) v)
    (done : sink order start distance v = .ok w) : Sorts order start stop v w := by
  induction distance generalizing v with
  | zero =>
    cases done
    exact ⟨.refl start stop w, fun i j first before _ last => but i j first before last (by omega)⟩
  | succ distance ih =>
    have but : SortedBut order start stop (start + distance + 1) v := but
    obtain ⟨before, compared, rest⟩ := exists_of_bind done
    cases before with
    | false =>
      cases rest
      have earlier : start + distance < w.size := by omega
      exact ⟨.refl start stop w, but.finish earlier compared⟩
    | true =>
      obtain ⟨u, exchanged, rest⟩ := exists_of_bind rest
      have exchanged := exchanged_of_ok exchanged
      have moved : Rearranges start stop v u :=
        exchanged.rearranges (by omega) (by omega) (by omega) (by omega)
      have inside' : stop ≤ u.size := moved.size_eq.symm ▸ inside
      have sorts := ih (by omega) inside' (but.sink (by omega) within compared exchanged) rest
      exact ⟨moved.trans sorts.rearranges, sorts.sorted⟩

theorem sorts_sinkAll {start distance count stop : Nat} (whole : start + distance + count = stop)
    (inside : stop ≤ v.size) (sorted : SortedFrom order start start (start + distance) v)
    (done : sinkAll order start distance count v = .ok w) : Sorts order start stop v w := by
  induction count generalizing distance v with
  | zero =>
    cases done
    exact ⟨.refl start stop w, whole ▸ sorted⟩
  | succ count ih =>
    obtain ⟨u, sunk, rest⟩ := exists_of_bind done
    have but : SortedBut order start (start + distance + 1) (start + distance) v :=
      fun i j first before last away => sorted i j first before (by omega) (by omega)
    have sorts : Sorts order start (start + distance + 1) v u :=
      sorts_sink (Nat.lt_succ_self _) (by omega) but sunk
    have wide : Rearranges start stop v u := sorts.rearranges.widen (Nat.le_refl start) (by omega)
    have inside' : stop ≤ u.size := wide.size_eq.symm ▸ inside
    have sorts' := ih (by omega) inside' sorts.sorted rest
    exact ⟨wide.trans sorts'.rearranges, sorts'.sorted⟩

theorem sorts_insertionSort {start stop : Nat} (inside : stop ≤ v.size)
    (done : insertionSort order start stop v = .ok w) : Sorts order start stop v w := by
  unfold insertionSort at done
  by_cases several : start < stop
  · have one : SortedFrom order start start (start + 1) v := fun i j _ _ _ _ => by omega
    exact sorts_sinkAll (by omega) inside one done
  · have none : stop - start - 1 = 0 := by omega
    rw [none] at done
    cases done
    exact ⟨.refl start stop v, fun i j _ _ _ _ => by omega⟩

end

end Segmented.Introsort
