import Segmented.Proofs.Rearrange

/-! Heapsort leaves its range in order: a heap is built from its last parent to its root, and its
largest element moves behind it until nothing is left. -/

namespace Segmented.Introsort

variable {α : Type} {order : α → α → Ordering} {v w u : Array α} {start size low node : Nat}

/-- No child is larger than its parent, for the parents from `low` on of the heap at `start`. -/
def Heaped (order : α → α → Ordering) (start size low : Nat) (v : Array α) : Prop :=
  ∀ child, 0 < child → child < size → low ≤ (child - 1) / 2 →
    InOrder order v (start + child) (start + (child - 1) / 2)

/-- The same but for the children of `node`, which are no larger than the parent of `node`. -/
structure HeapedBut (order : α → α → Ordering) (start size low node : Nat) (v : Array α) :
    Prop where
  apart : ∀ child, 0 < child → child < size → low ≤ (child - 1) / 2 → (child - 1) / 2 ≠ node →
    InOrder order v (start + child) (start + (child - 1) / 2)
  grand : 0 < node → low ≤ (node - 1) / 2 → ∀ child, 0 < child → child < size →
    (child - 1) / 2 = node → InOrder order v (start + child) (start + (node - 1) / 2)

/-- The heap may only be wrong at its first parent. -/
theorem HeapedBut.of_heaped (heaped : Heaped order start size (node + 1) v) :
    HeapedBut order start size node node v where
  apart child positive within above away := heaped child positive within (by omega)
  grand positive above := by omega

/-- A node that is smaller than its larger child changes places with it. -/
theorem HeapedBut.sift {child : Nat} (but : HeapedBut order start size low node v)
    (above : low ≤ node) (parent : 0 < child ∧ (child - 1) / 2 = node) (within : child < size)
    (largest : ∀ other, 0 < other → other < size → (other - 1) / 2 = node →
      InOrder order v (start + other) (start + child))
    (smaller : InOrder order v (start + node) (start + child))
    (exchanged : Exchanged (start + node) (start + child) v w) :
    HeapedBut order start size low child w := by
  have elsewhere := exchanged.elsewhere
  obtain ⟨positive, up⟩ := parent
  constructor
  · intro other positive' within' above' away
    by_cases under : (other - 1) / 2 = node
    · rw [under]
      by_cases same : other = child
      · subst same
        exact smaller.congr exchanged.atSecond exchanged.atFirst
      · exact (largest other positive' within' under).congr
          (elsewhere _ (by omega) (by omega)) exchanged.atFirst
    · have ordered := but.apart other positive' within' above' under
      have there : w[start + (other - 1) / 2]? = v[start + (other - 1) / 2]? :=
        elsewhere _ (by omega) (by omega)
      by_cases same : other = node
      · subst same
        exact (but.grand positive' above' child positive within up).congr exchanged.atFirst there
      · exact ordered.congr (elsewhere _ (by omega) (by omega)) there
  · intro _ _ other positive' within' under
    rw [up]
    have ordered := but.apart other positive' within' (by omega) (by omega)
    rw [under] at ordered
    exact ordered.congr (elsewhere _ (by omega) (by omega)) exchanged.atFirst

/-- A node that is no smaller than its larger child is in its place. -/
theorem HeapedBut.settle (but : HeapedBut order start size low node v)
    (done : ∀ child, 0 < child → child < size → (child - 1) / 2 = node →
      InOrder order v (start + child) (start + node)) : Heaped order start size low v := by
  intro child positive within above
  by_cases under : (child - 1) / 2 = node
  · exact under ▸ done child positive within under
  · exact but.apart child positive within above under

section

variable [weak : IsStrictWeakOrder α fun x y => order x y = .lt]

include weak

/-- The preferred child is in the heap, and no smaller than either child. -/
theorem largest_of_prefersRight {left : Nat} {right : Bool} (within : left < size)
    (preferred : prefersRight order start size left v = .ok right) :
    left + right.toNat < size ∧ ∀ child, left ≤ child → child ≤ left + 1 → child < size →
      InOrder order v (start + child) (start + (left + right.toNat)) := by
  unfold prefersRight at preferred
  split at preferred
  · rename_i several
    cases right with
    | true =>
      refine ⟨several, fun child lower upper _ => ?_⟩
      have ordered : InOrder order v (start + left) (start + left + 1) :=
        inOrder_of_precedes preferred
      rcases Nat.eq_or_lt_of_le lower with rfl | later
      · exact ordered
      · obtain rfl : child = left + 1 := by omega
        exact inOrder_self v _
    | false =>
      refine ⟨within, fun child lower upper _ => ?_⟩
      have ordered : InOrder order v (start + left + 1) (start + left) :=
        inOrder_of_not_precedes preferred
      rcases Nat.eq_or_lt_of_le lower with rfl | later
      · exact inOrder_self v _
      · obtain rfl : child = left + 1 := by omega
        exact ordered
  · rename_i single
    cases preferred
    refine ⟨within, fun child lower upper inside => ?_⟩
    obtain rfl : child = left := by omega
    exact inOrder_self v _

/-- Sifting down puts a node in its place in the heap below it. -/
theorem heaped_siftDown (above : low ≤ node) (inside : start + size ≤ v.size)
    (within : node < size) (but : HeapedBut order start size low node v)
    (done : siftDown order start size node v = .ok w) :
    Rearranges start (start + size) v w ∧ Heaped order start size low w := by
  induction below : size - node using Nat.strongRecOn generalizing node v with
  | ind below ih =>
    rw [siftDown] at done
    dsimp only at done
    split at done
    · rename_i left
      obtain ⟨right, preferred, rest⟩ := exists_of_bind done
      obtain ⟨small, largest⟩ := largest_of_prefersRight left preferred
      generalize chosen : 2 * node + 1 + right.toNat = child at *
      have few := right.toNat_le
      have children (other : Nat) (positive : 0 < other) (within : other < size)
          (under : (other - 1) / 2 = node) : InOrder order v (start + other) (start + child) :=
        largest other (by omega) (by omega) within
      obtain ⟨smaller, compared, rest⟩ := exists_of_bind rest
      cases smaller with
      | false =>
        cases rest
        have ordered := inOrder_of_not_precedes compared
        refine ⟨.refl start _ w, but.settle fun other positive within under => ?_⟩
        exact (children other positive within under).trans (by omega) ordered
      | true =>
        obtain ⟨u, exchanged, rest⟩ := exists_of_bind rest
        have exchanged := exchanged_of_ok exchanged
        have ordered := inOrder_of_precedes compared
        have parent : 0 < child ∧ (child - 1) / 2 = node := by omega
        have moved : Rearranges start (start + size) v u :=
          exchanged.rearranges (by omega) (by omega) (by omega) (by omega)
        have but' := but.sift above parent small children ordered exchanged
        have inside' : start + size ≤ u.size := moved.size_eq.symm ▸ inside
        obtain ⟨moved', heaped⟩ := ih _ (by omega) (by omega) inside' small but' rest rfl
        exact ⟨moved.trans moved', heaped⟩
    · rename_i leaf
      cases done
      exact ⟨.refl start _ w, but.settle fun child positive within under => by omega⟩

theorem heaped_buildHeap {count : Nat} (inside : start + size ≤ v.size) (few : count ≤ size)
    (heaped : Heaped order start size count v)
    (done : buildHeap order start size count v = .ok w) :
    Rearranges start (start + size) v w ∧ Heaped order start size 0 w := by
  induction count generalizing v with
  | zero =>
    cases done
    exact ⟨.refl start _ w, heaped⟩
  | succ count ih =>
    obtain ⟨u, sifted, rest⟩ := exists_of_bind done
    obtain ⟨moved, heaped'⟩ :=
      heaped_siftDown (Nat.le_refl count) inside few (.of_heaped heaped) sifted
    have inside' : start + size ≤ u.size := moved.size_eq.symm ▸ inside
    obtain ⟨moved', heaped''⟩ := ih inside' (Nat.le_of_succ_le few) heaped' rest
    exact ⟨moved.trans moved', heaped''⟩

/-- Nothing in a heap is larger than its root. -/
theorem Heaped.le_root (heaped : Heaped order start size 0 v) (inside : start + size ≤ v.size)
    (within : node < size) : InOrder order v (start + node) start := by
  induction node using Nat.strongRecOn with
  | ind node ih =>
    rcases Nat.eq_zero_or_pos node with rfl | positive
    · exact inOrder_self v start
    · have ordered := heaped node positive within (Nat.zero_le _)
      exact ordered.trans (by omega) (ih ((node - 1) / 2) (by omega) (by omega))

/-- What is behind the heap stays in order when the root joins it. -/
theorem Heaped.sortedFrom_exchange {last stop : Nat} (heaped : Heaped order start (last + 1) 0 v)
    (inside : start + (last + 1) ≤ v.size)
    (sorted : SortedFrom order start (start + (last + 1)) stop v)
    (exchanged : Exchanged start (start + last) v w) :
    SortedFrom order start (start + last) stop w := by
  have moved : Rearranges start (start + (last + 1)) v w :=
    exchanged.rearranges (Nat.le_refl start) (by omega) (by omega) (by omega)
  intro i j first before late final
  rcases Nat.eq_or_lt_of_le late with rfl | later
  · obtain ⟨k, first', last', same⟩ := moved.inside i first (by omega)
    have largest := heaped.le_root inside (show k - start < last + 1 by omega)
    rw [Nat.add_sub_cancel' first'] at largest
    exact largest.congr same exchanged.atSecond
  · exact moved.sortedFrom (Nat.le_refl start) (Nat.le_refl _) sorted i j first before later final

theorem sorts_emptyHeap {count stop : Nat} (inside : start + (count + 1) ≤ v.size)
    (within : start + (count + 1) ≤ stop) (heaped : Heaped order start (count + 1) 0 v)
    (sorted : SortedFrom order start (start + (count + 1)) stop v)
    (done : emptyHeap order start count v = .ok w) : Sorts order start stop v w := by
  induction count generalizing v with
  | zero =>
    cases done
    exact ⟨.refl start stop w, fun i j first before _ => sorted i j first before (by omega)⟩
  | succ count ih =>
    obtain ⟨u, exchanged, rest⟩ := exists_of_bind done
    have exchanged := exchanged_of_ok exchanged
    have sorted' := heaped.sortedFrom_exchange inside sorted exchanged
    have moved : Rearranges start stop v u :=
      exchanged.rearranges (Nat.le_refl start) (by omega) (by omega) (by omega)
    have inside' : start + (count + 1) ≤ u.size := by
      rw [moved.size_eq]
      omega
    have but : HeapedBut order start (count + 1) 0 0 u := by
      refine .of_heaped fun child positive within above => ?_
      exact (heaped child positive (by omega) (Nat.zero_le _)).congr
        (exchanged.elsewhere _ (by omega) (by omega)) (exchanged.elsewhere _ (by omega) (by omega))
    obtain ⟨x, sifted, rest⟩ := exists_of_bind rest
    obtain ⟨moved', heaped'⟩ :=
      heaped_siftDown (Nat.le_refl 0) inside' (Nat.succ_pos count) but sifted
    have sorted'' := moved'.sortedFrom (Nat.le_refl start) (Nat.le_refl _) sorted'
    have inside'' : start + (count + 1) ≤ x.size := moved'.size_eq.symm ▸ inside'
    have sorts := ih inside'' (by omega) heaped' sorted'' rest
    have wide : Rearranges start stop u x := moved'.widen (Nat.le_refl start) (by omega)
    exact ⟨(moved.trans wide).trans sorts.rearranges, sorts.sorted⟩

/-- Heapsort leaves the range in order and moves nothing else. -/
theorem sorts_heapsort {stop : Nat} (nonempty : start < stop) (inside : stop ≤ v.size)
    (done : heapsort order start stop v = .ok w) : Sorts order start stop v w := by
  obtain ⟨u, built, rest⟩ := exists_of_bind done
  have range : start + (stop - start) = stop := Nat.add_sub_cancel' (Nat.le_of_lt nonempty)
  -- The nodes from the middle on are no parents.
  have leaves : Heaped order start (stop - start) ((stop - start) / 2) v :=
    fun child positive within above => by omega
  obtain ⟨moved, heaped⟩ :=
    heaped_buildHeap (by omega) (Nat.div_le_self _ 2) leaves built
  rw [range] at moved
  have size : stop - start = stop - start - 1 + 1 := by omega
  have behind : SortedFrom order start (start + (stop - start - 1 + 1)) stop u :=
    fun i j _ _ late final => by omega
  rw [size] at heaped
  have inside' : stop ≤ u.size := moved.size_eq.symm ▸ inside
  have sorts := sorts_emptyHeap (by omega) (by omega) heaped behind rest
  exact ⟨moved.trans sorts.rearranges, sorts.sorted⟩

end

end Segmented.Introsort
