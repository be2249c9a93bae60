import Segmented.Proofs.CheckedSort
import Segmented.Proofs.Disposal
import Segmented.Proofs.HeapOrder

/-! The unstable sort of a deep sequence. Each split puts its pivot between what may stand before it
and what may stand after it, so that the two sides can be sorted on their own, by whichever of
the three algorithms. -/

namespace Segmented

namespace Introsort

variable {α : Type} {order : α → α → Ordering} {v w u : Array α}

/-- Up to `middle` the range may stand before what lies at `pivot`, and from there on after it. -/
structure Parted (order : α → α → Ordering) (pivot left middle right : Nat) (v : Array α) :
    Prop where
  low : left ≤ middle + 1
  high : middle ≤ right
  before : ∀ i, left ≤ i → i ≤ middle → InOrder order v i pivot
  after : ∀ i, middle < i → i ≤ right → InOrder order v pivot i

namespace Parted

variable {pivot left middle right : Nat}

theorem cons (parted : Parted order pivot (left + 1) middle right v)
    (here : InOrder order v left pivot) : Parted order pivot left middle right v where
  low := Nat.le_of_succ_le parted.low
  high := parted.high
  before i first last := by
    rcases Nat.eq_or_lt_of_le first with rfl | later
    · exact here
    · exact parted.before i later last
  after := parted.after

theorem concat (parted : Parted order pivot left middle right v)
    (here : InOrder order v pivot (right + 1)) :
    Parted order pivot left middle (right + 1) v where
  low := parted.low
  high := Nat.le_succ_of_le parted.high
  before := parted.before
  after i first last := by
    rcases Nat.eq_or_lt_of_le last with rfl | earlier
    · exact here
    · exact parted.after i first (Nat.le_of_lt_succ earlier)

end Parted

/-- The element at `middle` may stand after all that lies before it in the range, and before all
that lies after it. -/
structure Split (order : α → α → Ordering) (start middle stop : Nat) (v : Array α) : Prop where
  low : start ≤ middle
  high : middle < stop
  before : ∀ i, start ≤ i → i < middle → InOrder order v i middle
  after : ∀ i, middle < i → i < stop → InOrder order v middle i

namespace Split

variable {start middle stop : Nat}

theorem rearrange_before (split : Split order start middle stop v)
    (moved : Rearranges start middle v w) : Split order start middle stop w where
  low := split.low
  high := split.high
  before i first last := by
    obtain ⟨k, first', last', same⟩ := moved.inside i first last
    exact (split.before k first' last').congr same (moved.outside middle (.inr (Nat.le_refl _)))
  after i first last :=
    (split.after i first last).congr (moved.outside middle (.inr (Nat.le_refl _)))
      (moved.outside i (.inr (Nat.le_of_lt first)))

theorem rearrange_after (split : Split order start middle stop v)
    (moved : Rearranges (middle + 1) stop v w) : Split order start middle stop w where
  low := split.low
  high := split.high
  before i first last :=
    (split.before i first last).congr (moved.outside i (by omega))
      (moved.outside middle (.inl (Nat.lt_succ_self _)))
  after i first last := by
    obtain ⟨k, first', last', same⟩ := moved.inside i first last
    exact (split.after k first' last').congr (moved.outside middle (.inl (Nat.lt_succ_self _))) same

end Split

section

variable [weak : IsStrictWeakOrder α fun x y => order x y = .lt]

include weak

/-- A split range is in order once both of its sides are. -/
theorem Split.sorted {start middle stop : Nat} (split : Split order start middle stop v)
    (inside : middle < v.size) (front : SortedFrom order start start middle v)
    (back : SortedFrom order (middle + 1) (middle + 1) stop v) :
    SortedFrom order start start stop v := by
  intro i j first before _ last
  rcases Nat.lt_trichotomy j middle with early | rfl | late
  · exact front i j first before (by omega) early
  · exact split.before i first before
  · rcases Nat.lt_trichotomy i middle with early' | rfl | late'
    · exact (split.before i first early').trans inside (split.after j late last)
    · exact split.after j late last
    · exact back i j late' before late last

/-- The two ends of the range close in on each other, with what lies outside them parted. -/
theorem parted_partitionAround {pivot left right middle : Nat} (apart : pivot < left)
    (begun : left ≤ right + 1)
    (done : partitionAround order pivot left right v = .ok (middle, w)) :
    Rearranges left (right + 1) v w ∧ Parted order pivot left middle right w := by
  induction width : right + 1 - left using Nat.strongRecOn generalizing left right v with
  | ind width ih =>
    rw [partitionAround.eq_def] at done
    split at done
    · rename_i nonempty
      obtain ⟨smaller, compared, rest⟩ := exists_of_bind done
      cases smaller with
      | true =>
        obtain ⟨moved, parted⟩ := ih _ (by omega) (by omega) (by omega) rest rfl
        have here := (inOrder_of_precedes compared).congr (moved.outside left (by omega))
          (moved.outside pivot (by omega))
        exact ⟨moved.widen (Nat.le_succ left) (Nat.le_refl _), parted.cons here⟩
      | false =>
        cases right with
        | zero => cases rest
        | succ below =>
          obtain ⟨smaller, compared', rest⟩ := exists_of_bind rest
          cases smaller with
          | true =>
            -- One position cannot be on both sides of the pivot.
            have different : left ≠ below + 1 := by
              rintro rfl
              cases compared.symm.trans compared'
            obtain ⟨u, exchanged, rest⟩ := exists_of_bind rest
            have exchanged := exchanged_of_ok exchanged
            obtain ⟨moved, parted⟩ := ih _ (by omega) (by omega) (by omega) rest rfl
            have centre : w[pivot]? = v[pivot]? :=
              (moved.outside pivot (by omega)).trans
                (exchanged.elsewhere pivot (by omega) (by omega))
            have first : w[left]? = v[below + 1]? :=
              (moved.outside left (by omega)).trans exchanged.atFirst
            have last : w[below + 1]? = v[left]? :=
              (moved.outside (below + 1) (by omega)).trans exchanged.atSecond
            have parted' := parted.cons ((inOrder_of_precedes compared').congr first centre)
            have whole : Rearranges left (below + 1 + 1) v u :=
              exchanged.rearranges (Nat.le_refl left) (by omega) (by omega) (Nat.lt_succ_self _)
            exact ⟨whole.trans (moved.widen (Nat.le_succ left) (Nat.le_succ _)),
              parted'.concat ((inOrder_of_not_precedes compared).congr centre last)⟩
          | false =>
            obtain ⟨moved, parted⟩ := ih _ (by omega) apart (by omega) rest rfl
            have here := (inOrder_of_not_precedes compared').congr (moved.outside pivot (by omega))
              (moved.outside (below + 1) (by omega))
            exact ⟨moved.widen (Nat.le_refl left) (Nat.le_succ _), parted.concat here⟩
    · cases done
      exact ⟨.refl _ _ w, by omega, Nat.le_refl _, fun i _ _ => by omega, fun i _ _ => by omega⟩

omit weak in
/-- The exchange that brings the pivot between the two parts. -/
theorem Parted.split {start middle right : Nat}
    (parted : Parted order start (start + 1) middle right v)
    (exchanged : Exchanged start middle v w) : Split order start middle (right + 1) w := by
  have low := parted.low
  have high := parted.high
  refine ⟨by omega, by omega, fun i first last => ?_, fun i first last => ?_⟩
  · by_cases here : i = start
    · subst here
      exact (parted.before middle last (Nat.le_refl _)).congr exchanged.atFirst exchanged.atSecond
    · exact (parted.before i (by omega) (by omega)).congr
        (exchanged.elsewhere i here (by omega)) exchanged.atSecond
  · exact (parted.after i first (by omega)).congr exchanged.atSecond
      (exchanged.elsewhere i (by omega) (by omega))

theorem split_partition {start middle stop : Nat} (several : start + 1 < stop)
    (done : partition order start stop v = .ok (middle, w)) :
    Rearranges start stop v w ∧ Split order start middle stop w := by
  obtain ⟨⟨middle', u⟩, around, rest⟩ := exists_of_bind done
  obtain ⟨x, exchanged, rest⟩ := exists_of_bind rest
  cases rest
  have exchanged := exchanged_of_ok exchanged
  obtain ⟨moved, parted⟩ := parted_partitionAround (Nat.lt_succ_self start) (by omega) around
  have split := parted.split exchanged
  rw [Nat.sub_add_cancel (by omega)] at moved split
  have moved' : Rearranges start stop u w :=
    exchanged.rearranges (Nat.le_refl start) (by omega) split.low split.high
  exact ⟨(moved.widen (Nat.le_succ start) (Nat.le_refl stop)).trans moved', split⟩

omit weak in
theorem mem_of_medianOfThree {a b c median : Nat}
    (found : medianOfThree order v a b c = .ok median) : median = a ∨ median = b ∨ median = c := by
  obtain ⟨ab, -, rest⟩ := exists_of_bind found
  cases ab with
  | true =>
    obtain ⟨bc, -, rest⟩ := exists_of_bind rest
    cases bc with
    | true => exact .inr (.inl (Except.ok.inj rest).symm)
    | false =>
      obtain ⟨ac, -, rest⟩ := exists_of_bind rest
      cases ac with
      | true => exact .inr (.inr (Except.ok.inj rest).symm)
      | false => exact .inl (Except.ok.inj rest).symm
  | false =>
    obtain ⟨ac, -, rest⟩ := exists_of_bind rest
    cases ac with
    | true => exact .inl (Except.ok.inj rest).symm
    | false =>
      obtain ⟨bc, -, rest⟩ := exists_of_bind rest
      cases bc with
      | true => exact .inr (.inr (Except.ok.inj rest).symm)
      | false => exact .inr (.inl (Except.ok.inj rest).symm)

theorem Split.sorts_front_first {start middle stop : Nat} (split : Split order start middle stop v)
    (inside : stop ≤ v.size) (front : Sorts order start middle v u)
    (back : Sorts order (middle + 1) stop u w) : Sorts order start stop v w := by
  have moved := front.rearranges
  have moved' := back.rearranges
  have split' := (split.rearrange_before moved).rearrange_after moved'
  have low := split.low
  have high := split.high
  have whole : Rearranges start stop v w :=
    (moved.widen (Nat.le_refl start) (Nat.le_of_lt high)).trans
      (moved'.widen (by omega) (Nat.le_refl stop))
  have inside' : middle < w.size := by
    rw [whole.size_eq]
    omega
  have front' := moved'.sorted_apart (.inl (Nat.le_succ middle)) front.sorted
  exact ⟨whole, split'.sorted inside' front' back.sorted⟩

theorem Split.sorts_back_first {start middle stop : Nat} (split : Split order start middle stop v)
    (inside : stop ≤ v.size) (back : Sorts order (middle + 1) stop v u)
    (front : Sorts order start middle u w) : Sorts order start stop v w := by
  have moved := back.rearranges
  have moved' := front.rearranges
  have split' := (split.rearrange_after moved).rearrange_before moved'
  have low := split.low
  have high := split.high
  have whole : Rearranges start stop v w :=
    (moved.widen (by omega) (Nat.le_refl stop)).trans
      (moved'.widen (Nat.le_refl start) (Nat.le_of_lt high))
  have inside' : middle < w.size := by
    rw [whole.size_eq]
    omega
  have back' := moved'.sorted_apart (.inr (Nat.le_succ middle)) back.sorted
  exact ⟨whole, split'.sorted inside' front.sorted back'⟩

/-- Whatever the number of rounds, the range ends up in order, and nothing else moves. -/
theorem sorts_sortRange {rounds start stop : Nat} (inside : stop ≤ v.size)
    (done : sortRange order rounds start stop v = .ok w) : Sorts order start stop v w := by
  induction rounds generalizing start stop v w with
  | zero =>
    unfold sortRange at done
    split at done
    · exact sorts_insertionSort inside done
    · rename_i long
      exact sorts_heapsort (by omega) inside done
  | succ rounds ih =>
    unfold sortRange at done
    split at done
    · exact sorts_insertionSort inside done
    · rename_i long
      unfold insertionLimit at long
      obtain ⟨pivot, found, rest⟩ := exists_of_bind done
      obtain ⟨u, exchanged, rest⟩ := exists_of_bind rest
      obtain ⟨⟨middle, x⟩, parted, rest⟩ := exists_of_bind rest
      have among := mem_of_medianOfThree found
      have moved : Rearranges start stop v u :=
        (exchanged_of_ok exchanged).rearranges (Nat.le_refl start) (by omega) (by omega) (by omega)
      obtain ⟨moved', split⟩ := split_partition (by omega) parted
      have whole := moved.trans moved'
      have inside' : stop ≤ x.size := whole.size_eq.symm ▸ inside
      have high := split.high
      have sorts : Sorts order start stop x w := by
        dsimp only at rest
        split at rest
        · obtain ⟨y, front, back⟩ := exists_of_bind rest
          have sorts := ih (by omega) front
          have inside'' : stop ≤ y.size := sorts.rearranges.size_eq.symm ▸ inside'
          exact split.sorts_front_first inside' sorts (ih inside'' back)
        · obtain ⟨y, back, front⟩ := exists_of_bind rest
          have sorts := ih inside' back
          have inside'' : stop ≤ y.size := sorts.rearranges.size_eq.symm ▸ inside'
          exact split.sorts_back_first inside' sorts (ih (by omega) front)
      exact ⟨whole.trans sorts.rearranges, sorts.sorted⟩

theorem sorts_sort (done : sort order v = .ok w) : Sorts order 0 v.size v w := by
  unfold sort at done
  split at done
  · cases done
    exact ⟨.refl _ _ v, fun i j _ _ _ _ => by omega⟩
  · exact sorts_sortRange (Nat.le_refl _) done

omit weak in
theorem Sorts.pairwise (sorts : Sorts order 0 v.size v w) :
    w.toList.Pairwise fun x y => order y x ≠ .lt := by
  rw [List.pairwise_iff_getElem]
  intro i j first last before
  rw [Array.length_toList] at first last
  have within : j < v.size := sorts.rearranges.size_eq ▸ last
  exact sorts.sorted i j (Nat.zero_le i) before (Nat.zero_le j) within
    _ (Array.getElem?_eq_getElem first) _ (Array.getElem?_eq_getElem last)

end

end Introsort

namespace Sequence

variable {σ α : Type} {s : Sequence α} {order : α → α → Ordering}

/-- The same elements in order, in the same segments and levels, one version later. -/
structure SortedInPlace (order : α → α → Ordering) (s s' : Sequence α) : Prop where
  permuted : s'.toList.Perm s.toList
  sorted : s'.toList.Pairwise fun x y => order y x ≠ .lt
  segments : s'.segments.toList.map Buffer.outline = s.segments.toList.map Buffer.outline
  depth : s'.depth = s.depth
  version : s'.version = s.version + 1

theorem Valid.sortedInPlace [IsStrictWeakOrder α fun x y => order x y = .lt] (valid : s.Valid)
    {sorted : Array α} (done : Introsort.sort order s.toArray = .ok sorted) :
    SortedInPlace order s (s.refill sorted).bump := by
  have sorts := Introsort.sorts_sort done
  have enough : sorted.size = s.length := by
    rw [sorts.rearranges.size_eq, valid.length_eq]
    rfl
  have elements : (s.refill sorted).bump.toArray = sorted := valid.toArray_refill enough
  refine ⟨?_, ?_, valid.outlines_refill enough, depth_refill sorted s, ?_⟩
  · rw [toList, elements]
    exact sorts.rearranges.permuted.toList
  · rw [toList, elements]
    exact sorts.pairwise
  · unfold refill detach
    cases s.root <;> rfl

variable [Allocator σ α] [BEq α] [Inhabited α]

theorem Reachable.live_of_deep (reachable : s.Reachable) (deep : 1 < s.depth) :
    s.disposed = false := by
  apply Bool.eq_false_iff.mpr
  intro disposed
  rw [reachable.eq_remains disposed] at deep
  cases deep

/-- Every reachable sequence of several levels is sorted where its segments are, for every strict
weak order, and the depot is left alone. All accesses are in range. So are they when each goes
through the tree and every sum, product and difference of positions is checked to fit in a word:
no memory of 64-bit addresses holds more than `2 ^ 63` elements, and twice the position of any of
them is a word. -/
theorem Reachable.sortUnstable_sorts (reachable : s.Reachable) (deep : 1 < s.depth)
    (order : α → α → Ordering) [IsStrictWeakOrder α fun x y => order x y = .lt]
    (depot : Depot σ) :
    ∃ sorted : Array α, Introsort.sort order s.toArray = .ok sorted ∧
      (s.length ≤ 2 ^ 63 → s.checkedIntrosort order = .ok (s.refill sorted)) ∧
      ((Edit.sortUnstable order).apply s).run depot =
        ((.ok .done, (s.refill sorted).bump), depot) ∧
      SortedInPlace order s (s.refill sorted).bump := by
  have valid := reachable.valid
  obtain ⟨sorted, done, -⟩ := Introsort.permutes_sort order s.toArray
  refine ⟨sorted, done, fun small => ?_, ?_, valid.sortedInPlace done⟩
  · obtain ⟨sorted', done', checked⟩ := valid.checkedIntrosort_eq small order
    cases done.symm.trans done'
    exact checked
  · have accepted : (Edit.sortUnstable order).refusal? s = none := by
      simp [Edit.refusal?, Edit.violation?, reachable.live_of_deep deep]
    rw [Edit.run_apply_of_accepted accepted]
    simp only [Edit.perform, sortUnstable, flat?_of_deep deep, done]
    rfl

/-- Three segments, in which every remainder by seven occurs several times. -/
theorem sortUnstable_sorts_remainders :
    let s : Sequence Nat := onHeap [.extend (List.range 40)]
    let order : Nat → Nat → Ordering := compareOn (· % 7)
    s.Reachable ∧ 1 < s.depth ∧ ∃ sorted : Array Nat,
      Introsort.sort order s.toArray = .ok sorted ∧
      s.checkedIntrosort order = .ok (s.refill sorted) ∧
      ((Edit.sortUnstable order).apply s).run ({ allocator := ⟨⟩ } : Depot (Heap Nat)) =
        ((.ok .done, (s.refill sorted).bump), { allocator := ⟨⟩ }) ∧
      SortedInPlace order s (s.refill sorted).bump := by
  intro s order
  have reachable : s.Reachable := reachable_onHeap _
  have deep : 1 < s.depth := by decide +kernel
  have length : s.length = 40 := by decide +kernel
  obtain ⟨sorted, done, checked, run, sorts⟩ :=
    reachable.sortUnstable_sorts deep order ({ allocator := ⟨⟩ } : Depot (Heap Nat))
  have small : s.length ≤ 2 ^ 63 := by
    rw [length]
    decide
  exact ⟨reachable, deep, sorted, done, checked small, run, sorts⟩

end Sequence

end Segmented
