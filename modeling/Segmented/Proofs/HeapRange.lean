import Segmented.Proofs.UnstableSort
import Segmented.Sequence.Access

/-! Heapsort of a range of a sequence where it lies, element by element, with a note of every
position that it reads or exchanges. It does to the sequence what the heapsort of an array does to
the array of the elements, and keeps to the range. -/

namespace Segmented

variable {α : Type}

/-- A sequence that is worked on, and the positions that have been read or exchanged, the latest
first. -/
structure Bench (α : Type) where
  sequence : Sequence α
  touched : List Nat := []

/-- A step on a sequence where it lies, which stops at an access outside the sequence. -/
abbrev Bench.Step (α ρ : Type) := StateT (Bench α) (Except Misuse) ρ

namespace Bench

/-- The element at `first` comes before the one at `second`. -/
def precedes (order : α → α → Ordering) (first second : Nat) : Step α Bool := do
  let { sequence, touched } ← get
  let x ← sequence.index first
  let y ← sequence.index second
  set ({ sequence, touched := second :: first :: touched } : Bench α)
  return order x y == .lt

def exchange (first second : Nat) : Step α Unit := do
  let { sequence, touched } ← get
  if first < sequence.length ∧ second < sequence.length then
    set ({ sequence := sequence.exchange first second
           touched := second :: first :: touched } : Bench α)
  else
    throw (.exchange first second sequence.length)

/-- Whether the right child of a node of the heap at `start` exists and is the larger one. -/
def prefersRight (order : α → α → Ordering) (start size left : Nat) : Step α Bool :=
  if left + 1 < size then precedes order (start + left) (start + left + 1) else pure false

/-- Moves the element at `node` of the heap at `start` down until no child is larger. -/
def siftDown (order : α → α → Ordering) (start size node : Nat) : Step α Unit := do
  let left := 2 * node + 1
  if left < size then
    let child := left + (← prefersRight order start size left).toNat
    if ← precedes order (start + node) (start + child) then
      exchange (start + node) (start + child)
      siftDown order start size child
termination_by size - node

/-- Sifts the first `count` nodes down, the last of them first. -/
def buildHeap (order : α → α → Ordering) (start size : Nat) : Nat → Step α Unit
  | 0 => pure ()
  | count + 1 => do
    siftDown order start size count
    buildHeap order start size count

/-- Moves the root behind a shrinking heap, `count` times. -/
def emptyHeap (order : α → α → Ordering) (start : Nat) : Nat → Step α Unit
  | 0 => pure ()
  | count + 1 => do
    exchange start (start + (count + 1))
    siftDown order start (count + 1) 0
    emptyHeap order start count

/-- Sorts the range from `start` below `stop` through a heap. -/
def heapsort (order : α → α → Ordering) (start stop : Nat) : Step α Unit := do
  let size := stop - start
  if 2 ≤ size then
    buildHeap order start size (size / 2)
    emptyHeap order start (size - 1)

/-! ### Steps within a range -/

/-- Run on a sequence that holds the items of `v`, the step answers `x` and leaves the items of `w`;
all that it touches lies in the range from `start` below `stop`. -/
structure Keeps (s : Sequence α) (start stop : Nat) {ρ : Type} (v : Array α) (step : Step α ρ)
    (x : ρ) (w : Array α) : Prop where
  size : w.size = s.length
  run : ∀ touched, ∃ more : List Nat, (∀ index ∈ more, start ≤ index ∧ index < stop) ∧
    step.run { sequence := s.refill v, touched } =
      .ok (x, { sequence := s.refill w, touched := more ++ touched })

namespace Keeps

variable {s : Sequence α} {start stop : Nat} {ρ τ : Type} {u v w : Array α}

theorem pure (size : v.size = s.length) (x : ρ) :
    Keeps s start stop v (Pure.pure x : Step α ρ) x v where
  size := size
  run touched := ⟨[], by simp, rfl⟩

theorem bind {first : Step α ρ} {next : ρ → Step α τ} {x : ρ} {y : τ}
    (keeps : Keeps s start stop u first x v) (keeps' : Keeps s start stop v (next x) y w) :
    Keeps s start stop u (first >>= next) y w where
  size := keeps'.size
  run touched := by
    obtain ⟨more, within, run⟩ := keeps.run touched
    obtain ⟨more', within', run'⟩ := keeps'.run (more ++ touched)
    refine ⟨more' ++ more, ?_, ?_⟩
    · intro index member
      rcases List.mem_append.mp member with new | old
      · exact within' index new
      · exact within index old
    · rw [StateT.run_bind, run, List.append_assoc]
      exact run'

end Keeps

section

variable {s : Sequence α} {start stop : Nat} {order : α → α → Ordering} {v w : Array α}

theorem within_pair {first second : Nat} (inside : start ≤ first ∧ first < stop)
    (inside' : start ≤ second ∧ second < stop) :
    ∀ index ∈ [second, first], start ≤ index ∧ index < stop := by
  intro index member
  rcases List.mem_cons.mp member with rfl | member
  · exact inside'
  · exact List.mem_singleton.mp member ▸ inside

theorem index_refill (valid : s.Valid) (size : v.size = s.length) {index : Nat} {x : α}
    (here : Introsort.read v index = .ok x) : (s.refill v).index index = .ok x := by
  have follows := (Sequence.follows_refill valid size).2
  have found : (s.refill v).get? index = some x := by
    rw [follows.valid.get?_eq, follows.elements, Array.getElem?_toList]
    exact Introsort.mem_of_read here
  rw [Sequence.index, found]

theorem keeps_precedes (valid : s.Valid) (size : v.size = s.length) {first second : Nat}
    (inside : start ≤ first ∧ first < stop) (inside' : start ≤ second ∧ second < stop)
    {answer : Bool} (compared : Introsort.precedes order v first second = .ok answer) :
    Keeps s start stop v (precedes order first second) answer v := by
  obtain ⟨x, here, rest⟩ := exists_of_bind compared
  obtain ⟨y, there, same⟩ := exists_of_bind rest
  cases same
  refine ⟨size, fun touched => ⟨[second, first], within_pair inside inside', ?_⟩⟩
  simp only [precedes, StateT.run_bind, StateT.run_get, pure_bind, StateT.run_monadLift,
    monadLift_self, index_refill valid size here, index_refill valid size there]
  rfl

theorem length_refill (valid : s.Valid) (size : v.size = s.length) :
    (s.refill v).length = s.length := by
  have follows := (Sequence.follows_refill valid size).2
  rw [follows.valid.length_eq, follows.elements, Array.length_toList, size]

theorem keeps_exchange (valid : s.Valid) (size : v.size = s.length) {first second : Nat}
    (inside : start ≤ first ∧ first < stop) (inside' : start ≤ second ∧ second < stop)
    (exchanged : Introsort.exchange v first second = .ok w) :
    Keeps s start stop v (exchange first second) () w := by
  have moved := (Introsort.exchanged_of_ok exchanged).permuted.size_eq
  unfold Introsort.exchange at exchanged
  split at exchanged
  · rename_i within
    cases exchanged
    refine ⟨moved.trans size, fun touched => ⟨[second, first], within_pair inside inside', ?_⟩⟩
    have valid' := (Sequence.follows_refill valid size).2.valid
    have same := valid.toArray_refill size
    have swapped : (s.refill v).exchange first second =
        s.refill (v.swap first second within.1 within.2) := by
      rw [valid'.exchange_eq_refill (by rw [same]; exact within.1) (by rw [same]; exact within.2)]
      simp only [same]
      exact valid.refill_refill size (moved.trans size)
    have bounds : first < (s.refill v).length ∧ second < (s.refill v).length := by
      rw [length_refill valid size, ← size]
      exact within
    simp only [exchange, StateT.run_bind, StateT.run_get, pure_bind, if_pos bounds, swapped]
    rfl
  · cases exchanged

/-! ### The heap -/

theorem keeps_prefersRight (valid : s.Valid) (size : v.size = s.length) {count left : Nat}
    (inside : start + count ≤ stop) (within : left < count) {answer : Bool}
    (preferred : Introsort.prefersRight order start count left v = .ok answer) :
    Keeps s start stop v (prefersRight order start count left) answer v ∧
      left + answer.toNat < count := by
  unfold Introsort.prefersRight at preferred
  unfold prefersRight
  split at preferred
  · rename_i several
    have few := answer.toNat_le
    rw [if_pos several]
    exact ⟨keeps_precedes valid size (by omega) (by omega) preferred, by omega⟩
  · rename_i single
    cases preferred
    rw [if_neg single]
    exact ⟨.pure size false, within⟩

theorem keeps_siftDown (valid : s.Valid) (size : v.size = s.length) {count node : Nat}
    (inside : start + count ≤ stop)
    (done : Introsort.siftDown order start count node v = .ok w) :
    Keeps s start stop v (siftDown order start count node) () w := by
  induction below : count - node using Nat.strongRecOn generalizing node v with
  | ind below ih =>
    rw [Introsort.siftDown] at done
    rw [siftDown]
    dsimp only at done ⊢
    split at done
    · rename_i left
      obtain ⟨right, preferred, rest⟩ := exists_of_bind done
      obtain ⟨larger, compared, rest⟩ := exists_of_bind rest
      obtain ⟨keeps, child⟩ := keeps_prefersRight valid size inside left preferred
      rw [if_pos left]
      apply keeps.bind
      apply (keeps_precedes valid size (by omega) (by omega) compared).bind
      cases larger with
      | false =>
        cases rest
        exact .pure size ()
      | true =>
        obtain ⟨u, exchanged, rest⟩ := exists_of_bind rest
        have keeps' : Keeps s start stop v (exchange _ _) () u :=
          keeps_exchange valid size (by omega) (by omega) exchanged
        exact keeps'.bind (ih _ (by omega) keeps'.size rest rfl)
    · rename_i leaf
      cases done
      rw [if_neg leaf]
      exact .pure size ()

theorem keeps_buildHeap (valid : s.Valid) (size : v.size = s.length) {length count : Nat}
    (inside : start + length ≤ stop)
    (done : Introsort.buildHeap order start length count v = .ok w) :
    Keeps s start stop v (buildHeap order start length count) () w := by
  induction count generalizing v with
  | zero =>
    cases done
    exact .pure size ()
  | succ count ih =>
    obtain ⟨u, sifted, rest⟩ := exists_of_bind done
    have keeps := keeps_siftDown valid size inside sifted
    exact keeps.bind (ih keeps.size rest)

theorem keeps_emptyHeap (valid : s.Valid) (size : v.size = s.length) {count : Nat}
    (inside : start + count < stop)
    (done : Introsort.emptyHeap order start count v = .ok w) :
    Keeps s start stop v (emptyHeap order start count) () w := by
  induction count generalizing v with
  | zero =>
    cases done
    exact .pure size ()
  | succ count ih =>
    obtain ⟨u, exchanged, rest⟩ := exists_of_bind done
    obtain ⟨x, sifted, rest⟩ := exists_of_bind rest
    have keeps : Keeps s start stop v (exchange start (start + (count + 1))) () u :=
      keeps_exchange valid size (by omega) (by omega) exchanged
    have keeps' : Keeps s start stop u (siftDown order start (count + 1) 0) () x :=
      keeps_siftDown valid keeps.size (by omega) sifted
    exact keeps.bind (keeps'.bind (ih keeps'.size (by omega) rest))

theorem keeps_heapsort (valid : s.Valid) (size : v.size = s.length) (range : start ≤ stop)
    (done : Introsort.heapsort order start stop v = .ok w) :
    Keeps s start stop v (heapsort order start stop) () w := by
  obtain ⟨u, built, emptied⟩ := exists_of_bind done
  unfold heapsort
  dsimp only
  by_cases several : 2 ≤ stop - start
  · have keeps : Keeps s start stop v (buildHeap order start _ _) () u :=
      keeps_buildHeap valid size (by omega) built
    rw [if_pos several]
    exact keeps.bind (keeps_emptyHeap valid keeps.size (by omega) emptied)
  · -- A heap of one element has no parent, and nothing behind its root.
    have parents : (stop - start) / 2 = 0 := by omega
    have others : stop - start - 1 = 0 := by omega
    rw [parents] at built
    rw [others] at emptied
    cases built
    cases emptied
    rw [if_neg several]
    exact .pure size ()

end

end Bench

/-! ### Ranges -/

namespace Introsort

variable {order : α → α → Ordering} {v w : Array α} {start stop : Nat}

theorem toList_eq_around (range : start ≤ stop) (v : Array α) :
    v.toList = v.toList.take start ++ ((v.extract start stop).toList ++ v.toList.drop stop) := by
  have window : (v.extract start stop).toList ++ v.toList.drop stop = v.toList.drop start := by
    have rest := List.take_append_drop (stop - start) (v.toList.drop start)
    rw [List.drop_drop, Nat.add_sub_cancel' range] at rest
    rw [Array.toList_extract, List.extract_eq_take_drop]
    exact rest
  rw [window, List.take_append_drop]

/-- What is moved within a range is a permutation of what has been there. -/
theorem Rearranges.perm_extract (moved : Rearranges start stop v w) (range : start ≤ stop) :
    (w.extract start stop).Perm (v.extract start stop) := by
  have before : w.toList.take start = v.toList.take start := by
    refine List.ext_getElem? fun index => ?_
    simp only [List.getElem?_take, Array.getElem?_toList]
    split
    · rename_i early
      exact moved.outside index (.inl early)
    · rfl
  have after : w.toList.drop stop = v.toList.drop stop := by
    refine List.ext_getElem? fun index => ?_
    simp only [List.getElem?_drop, Array.getElem?_toList]
    exact moved.outside (stop + index) (.inr (Nat.le_add_right ..))
  have whole := moved.permuted.toList
  rw [toList_eq_around range w, toList_eq_around range v, before, after,
    List.perm_append_left_iff, List.perm_append_right_iff] at whole
  exact Array.perm_iff_toList_perm.mpr whole

theorem Sorts.pairwise_extract (sorts : Sorts order start stop v w) :
    (w.extract start stop).toList.Pairwise fun x y => order y x ≠ .lt := by
  rw [List.pairwise_iff_getElem]
  intro i j first last before
  rw [Array.length_toList, Array.size_extract] at first last
  have here : w[start + i]? = some (w.extract start stop)[i] := by simp
  have there : w[start + j]? = some (w.extract start stop)[j] := by simp
  exact sorts.sorted (start + i) (start + j) (by omega) (by omega) (by omega) (by omega)
    _ here _ there

/-- Heapsort of a range of an array always ends, with the range in order. -/
theorem exists_sorts_heapsort (order : α → α → Ordering)
    [IsStrictWeakOrder α fun x y => order x y = .lt] (range : start ≤ stop)
    (inside : stop ≤ v.size) :
    ∃ w, heapsort order start stop v = .ok w ∧ Sorts order start stop v w := by
  rcases Nat.eq_or_lt_of_le range with rfl | nonempty
  · refine ⟨v, ?_, .refl start start v, fun i j _ _ _ _ => by omega⟩
    simp only [heapsort, Nat.sub_self, Nat.zero_div, Nat.zero_sub]
    rfl
  · obtain ⟨w, done, -⟩ := permutes_heapsort order nonempty inside
    exact ⟨w, done, sorts_heapsort nonempty inside done⟩

end Introsort

namespace Sequence

variable {s : Sequence α}

/-- The elements of the range from `start` below `stop` in order, and all else as it was. -/
structure SortedWithin (order : α → α → Ordering) (start stop : Nat) (s s' : Sequence α) :
    Prop where
  permuted : (s'.toArray.extract start stop).Perm (s.toArray.extract start stop)
  sorted : (s'.toArray.extract start stop).toList.Pairwise fun x y => order y x ≠ .lt
  outside : ∀ index, index < start ∨ stop ≤ index → s'.toArray[index]? = s.toArray[index]?
  segments : s'.segments.toList.map Buffer.outline = s.segments.toList.map Buffer.outline
  depth : s'.depth = s.depth

variable [BEq α] [Inhabited α]

/-- Heapsort in place puts any range of a reachable sequence in order, for every strict weak order,
and never reads or exchanges what lies outside the range. Both of its loops count down to nothing,
and a node that is sifted down moves towards the end of the heap, so that it always comes to an
end. What it leaves is what the heapsort of an array makes of the elements. -/
theorem Reachable.heapsort_sorts_within (reachable : s.Reachable) (order : α → α → Ordering)
    [IsStrictWeakOrder α fun x y => order x y = .lt] {start stop : Nat} (range : start ≤ stop)
    (inside : stop ≤ s.length) :
    ∃ (sorted : Array α) (touched : List Nat),
      Introsort.heapsort order start stop s.toArray = .ok sorted ∧
      (Bench.heapsort order start stop).run { sequence := s } =
        .ok ((), { sequence := s.refill sorted, touched }) ∧
      (∀ index ∈ touched, start ≤ index ∧ index < stop) ∧
      SortedWithin order start stop s (s.refill sorted) := by
  have valid := reachable.valid
  have length : s.length = s.toArray.size := valid.length_eq
  obtain ⟨sorted, done, sorts⟩ :=
    Introsort.exists_sorts_heapsort order range (length ▸ inside)
  have keeps := Bench.keeps_heapsort valid length.symm range done
  obtain ⟨touched, within, run⟩ := keeps.run []
  rw [valid.refill_toArray, List.append_nil] at run
  have elements : (s.refill sorted).toArray = sorted := valid.toArray_refill keeps.size
  refine ⟨sorted, touched, done, run, within, ?_⟩
  constructor
  · rw [elements]
    exact sorts.rearranges.perm_extract range
  · rw [elements]
    exact sorts.pairwise_extract
  · rw [elements]
    exact sorts.rearranges.outside
  · exact valid.outlines_refill keeps.size
  · exact depth_refill sorted s

/-- The middle of forty elements in three segments, which a remainder by seven puts in order. -/
theorem heapsort_sorts_within_remainders :
    let s : Sequence Nat := onHeap [.extend (List.range 40)]
    let order : Nat → Nat → Ordering := compareOn (· % 7)
    s.Reachable ∧ 1 < s.depth ∧ ∃ (sorted : Array Nat) (touched : List Nat),
      Introsort.heapsort order 10 30 s.toArray = .ok sorted ∧
      (Bench.heapsort order 10 30).run { sequence := s } =
        .ok ((), { sequence := s.refill sorted, touched }) ∧
      (∀ index ∈ touched, 10 ≤ index ∧ index < 30) ∧
      SortedWithin order 10 30 s (s.refill sorted) := by
  intro s order
  have reachable : s.Reachable := reachable_onHeap _
  have deep : 1 < s.depth := by decide +kernel
  have length : s.length = 40 := by decide +kernel
  have inside : 30 ≤ s.length := by
    rw [length]
    decide
  exact ⟨reachable, deep, reachable.heapsort_sorts_within order (by decide) inside⟩

end Sequence

end Segmented
