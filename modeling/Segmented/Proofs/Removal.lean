import Segmented.Proofs.Search
import Segmented.Proofs.SequenceStep
import Segmented.Sequence.Filter

/-! Removal by value and by test leaves what a single pass over the list of the elements leaves,
after the same questions in the same order. -/

namespace Segmented.Sequence

variable {σ α S : Type}

/-- The items that fail the test, in order; it is asked once for each item. -/
def sift (test : α → StateM S Bool) : List α → StateM S (List α)
  | [] => pure []
  | x :: rest => do
    if ← test x then sift test rest
    else
      let kept ← sift test rest
      return x :: kept

theorem sift_pure (holds : α → Bool) (xs : List α) :
    sift (S := S) (fun x => pure (holds x)) xs = pure (xs.filter (!holds ·)) := by
  induction xs with
  | nil => rfl
  | cons x rest ih =>
    rw [sift, ih]
    cases passed : holds x <;> simp [passed]

theorem sublist_sift (test : α → StateM S Bool) (xs : List α) (state : S) :
    ((sift test xs).run state).1.Sublist xs := by
  induction xs generalizing state with
  | nil => exact .slnil
  | cons x rest ih =>
    simp only [sift, StateT.run_bind]
    cases (test x).run state with
    | mk passed state' =>
      cases passed with
      | true => exact .cons x (ih state')
      | false => exact .cons_cons x (ih state')

theorem sweep_eq (test : α → StateM S Bool) (items : Array α) :
    sweep test items = do return (← sift test items.toList).toArray := by
  have onto (xs : List α) (kept : Array α) :
      (xs.foldlM (fun kept x => do if ← test x then return kept else return kept.push x) kept :
          StateM S (Array α)) = do return kept ++ (← sift test xs).toArray := by
    induction xs generalizing kept with
    | nil => simp [sift]
    | cons x rest ih =>
      rw [List.foldlM_cons, sift, bind_assoc, bind_assoc]
      apply bind_congr
      intro passed
      cases passed with
      | true => simpa using ih kept
      | false => simpa using ih (kept.push x)
  rw [sweep, ← Array.foldlM_toList, onto]
  simp

/-- What a test asks and removes from a position on, where there is an item. -/
theorem run_sift_drop (test : α → StateM S Bool) {items : Array α} {start : Nat}
    (inside : start < items.size) (state : S) :
    (sift test (items.toList.drop start)).run state =
      match (test items[start]).run state with
      | (true, state) => (sift test (items.toList.drop (start + 1))).run state
      | (false, state) =>
        let (kept, state) := (sift test (items.toList.drop (start + 1))).run state
        (items[start] :: kept, state) := by
  rw [List.drop_eq_getElem_cons (by simpa using inside), sift, Array.getElem_toList,
    StateT.run_bind]
  cases (test items[start]).run state with
  | mk passed state' => cases passed <;> rfl

theorem run_scan_succ (test : α → StateM S Bool) {items : Array α} {start : Nat}
    (inside : start < items.size) (count : Nat) (state : S) :
    (Tree.scan test items start (count + 1)).run state =
      match (test items[start]).run state with
      | (true, state) => (some start, state)
      | (false, state) => (Tree.scan test items (start + 1) count).run state := by
  rw [Tree.scan, Array.getElem?_eq_getElem inside]
  dsimp only
  rw [StateT.run_bind]
  cases (test items[start]).run state with
  | mk passed state' => cases passed <;> rfl

/-- A search that finds nothing tells that nothing is to be removed. -/
theorem sift_of_none {test : α → StateM S Bool} {items : Array α} {start : Nat} {state state' : S}
    (run : (Tree.scan test items start (items.size - start)).run state = (none, state')) :
    (sift test (items.toList.drop start)).run state = (items.toList.drop start, state') := by
  generalize remaining : items.size - start = count at run
  induction count generalizing start state with
  | zero =>
    rw [List.drop_of_length_le (by simp; omega)]
    exact congrArg (([], ·)) (congrArg Prod.snd run)
  | succ count ih =>
    have inside : start < items.size := by omega
    rw [run_scan_succ test inside] at run
    rw [run_sift_drop test inside]
    cases asked : (test items[start]).run state with
    | mk passed between =>
      rw [asked] at run
      cases passed with
      | true => cases run
      | false =>
        dsimp only at run ⊢
        rw [ih (by omega) run, List.drop_eq_getElem_cons (i := start) (by simpa using inside)]
        rfl

/-- After a search the removal goes on behind what was found. -/
theorem sift_of_some {test : α → StateM S Bool} {items : Array α} {start index : Nat}
    {state state' : S}
    (run : (Tree.scan test items start (items.size - start)).run state = (some index, state')) :
    start ≤ index ∧ index < items.size ∧
      (sift test (items.toList.drop start)).run state =
        let outcome := (sift test (items.toList.drop (index + 1))).run state'
        ((items.toList.take index).drop start ++ outcome.1, outcome.2) := by
  generalize remaining : items.size - start = count at run
  induction count generalizing start state with
  | zero => cases congrArg Prod.fst run
  | succ count ih =>
    have inside : start < items.size := by omega
    rw [run_scan_succ test inside] at run
    rw [run_sift_drop test inside]
    cases asked : (test items[start]).run state with
    | mk passed between =>
      rw [asked] at run
      cases passed with
      | true =>
        cases run
        refine ⟨Nat.le_refl _, inside, ?_⟩
        rw [List.drop_of_length_le (List.length_take_le ..)]
        rfl
      | false =>
        dsimp only at run ⊢
        obtain ⟨order, bound, same⟩ := ih (by omega) run
        refine ⟨Nat.le_of_succ_le order, bound, ?_⟩
        have passed : start < (items.toList.take index).length := by
          rw [List.length_take, Array.length_toList]
          omega
        rw [same, List.drop_eq_getElem_cons passed, List.getElem_take]
        rfl

variable {s : Sequence α}

/-- The answer of a removal from `start` on: the number of elements that went, added to an earlier
one, what the test keeps, and the sequence of the others. -/
structure Removed (s : Sequence α) (start earlier : Nat) (outcome : List α × S)
    (answer : Nat × S × Sequence α) : Prop where
  count : answer.1 + outcome.1.length = earlier + (s.toList.drop start).length
  state : answer.2.1 = outcome.2
  follows : s.Follows (s.toList.take start ++ outcome.1) answer.2.2

variable [Allocator σ α] [LawfulAllocator σ α]

open Depot (Ensures)

theorem ensures_removeEach (valid : s.Valid) (test : α → StateM S Bool) {bound start : Nat}
    (enough : s.length - start ≤ bound) (earlier : Nat) (state : S) :
    Ensures (σ := σ) s.options.segmentCapacity s.storage
      (removeEach test bound start earlier state s) (fun answer => answer.2.2.storage)
      (s.Removed start earlier ((sift test (s.toList.drop start)).run state)) := by
  induction bound generalizing s start earlier state with
  | zero =>
    have none : s.toList.drop start = [] := List.drop_of_length_le (by
      rw [← valid.length_eq]
      omega)
    refine Ensures.pure rfl ⟨?_, ?_, ?_⟩
    · rw [none]
      rfl
    · rw [none]
      rfl
    · have all : s.toList.take start ++ [] = s.toList := none ▸ List.take_append_drop start s.toList
      have follows := Follows.refl valid
      rw [none]
      rwa [← all] at follows
  | succ bound ih =>
    rw [removeEach, valid.find_eq]
    cases run : (Tree.scan test s.toArray start (s.toArray.size - start)).run state with
    | mk found state' =>
      cases found with
      | none =>
        refine Ensures.pure rfl ?_
        rw [toList, sift_of_none run]
        exact ⟨rfl, rfl, (List.take_append_drop start s.toList).symm ▸ .refl valid⟩
      | some index =>
        obtain ⟨order, inside, same⟩ := sift_of_some run
        rw [← toList.eq_1 s] at same
        have length := valid.length_eq
        have within : index < s.length := length ▸ inside
        apply (ensures_removeAt valid within).bind
        intro answer done
        obtain ⟨-, follows⟩ := done
        have shorter := follows.valid.length_eq
        rw [follows.elements, List.length_eraseIdx_of_lt (length ▸ within), ← length] at shorter
        have behind : answer.2.toList.drop index = s.toList.drop (index + 1) := by
          rw [follows.elements, List.eraseIdx_eq_take_drop_succ,
            List.drop_append_of_le_length (by rw [List.length_take]; omega),
            List.drop_of_length_le (List.length_take_le ..), List.nil_append]
        have front : answer.2.toList.take index = s.toList.take index := by
          rw [follows.elements, List.eraseIdx_eq_take_drop_succ,
            List.take_append_of_le_length (by rw [List.length_take]; omega), List.take_take,
            Nat.min_self]
        have fewer : answer.2.length - index ≤ bound := by omega
        have rest := ih follows.valid fewer (earlier + 1) state'
        rw [follows.options, behind] at rest
        refine rest.weaken fun answer' removed => ⟨rfl, ?_⟩
        obtain ⟨count, kept, follows'⟩ := removed
        rw [behind] at count
        rw [front] at follows'
        have parts : s.toList.take start ++ (s.toList.take index).drop start =
            s.toList.take index := by
          have split := List.take_append_drop start (s.toList.take index)
          rwa [List.take_take, Nat.min_eq_left order] at split
        rw [same]
        refine ⟨?_, kept, ?_⟩
        · simp only [List.length_append, List.length_drop, List.length_take] at count ⊢
          have total : index < s.toList.length := inside
          omega
        · rw [← List.append_assoc, parts]
          exact follows.trans follows'

omit [LawfulAllocator σ α] in
theorem removeIf_of_segment {segment : Buffer α}
    (root : s.root = some { level := 0, tree := segment }) (test : α → StateM S Bool) (state : S) :
    (s.removeIf test state : Depot.Step σ (Nat × S × Sequence α)) =
      let outcome := (sift test segment.toList).run state
      let removed := segment.size - outcome.1.length
      let kept : Buffer α := { segment with items := outcome.1.toArray }
      if removed = 0 then
        pure (0, outcome.2, { s with root := some { level := 0, tree := kept } })
      else do
        let swept ← kept.settle s.options
        let s' ← settle { s with root := some { level := 0, tree := swept },
                                 length := s.length - removed, version := s.version + 1 }
        return (removed, outcome.2, s') := by
  obtain ⟨_, length, tail, version, options, firstCapacity, disposed⟩ := s
  cases root
  have same : (sweep test segment.items).run state =
      (((sift test segment.toList).run state).1.toArray,
        ((sift test segment.toList).run state).2) := by
    rw [sweep_eq]
    rfl
  simp only [removeIf, same, List.size_toArray]
  rfl

omit [LawfulAllocator σ α] in
theorem removeIf_of_deep (deep : ∀ segment, s.root ≠ some { level := 0, tree := segment })
    (test : α → StateM S Bool) (state : S) :
    (s.removeIf test state : Depot.Step σ (Nat × S × Sequence α)) =
      removeEach test s.length 0 0 state s := by
  unfold removeIf
  split
  · exact absurd rfl (deep _)
  · rfl

theorem ensures_removeIf (valid : s.Valid) (test : α → StateM S Bool) (state : S) :
    Ensures (σ := σ) s.options.segmentCapacity s.storage (s.removeIf test state)
      (fun answer => answer.2.2.storage)
      (s.Removed 0 0 ((sift test s.toList).run state)) := by
  have each := ensures_removeEach (σ := σ) valid test (Nat.le_refl (s.length - 0)) 0 state
  cases valid with
  | empty root zero =>
    rwa [removeIf_of_deep (by simp [root])]
  | tree root packed total tail =>
    rename_i level tree front last
    cases level with
    | succ level => rwa [removeIf_of_deep (by simp [root])]
    | zero =>
      obtain ⟨rfl, rfl⟩ := Tree.eq_of_row_segment packed.parts
      have elements : s.toList = last.toList := toList_of_root root
      rw [removeIf_of_segment root, elements]
      have fewer := sublist_sift test last.toList state
      generalize (sift test last.toList).run state = outcome at fewer
      obtain ⟨kept, state'⟩ := outcome
      dsimp only at fewer ⊢
      have size := Buffer.length_toList last
      have shorter := fewer.length_le
      have count : last.size - kept.length + kept.length = 0 + s.toList.length := by
        rw [elements]
        omega
      rw [storage_of_root root, Tree.storage_segment]
      split
      · rename_i all
        obtain rfl := fewer.eq_of_length_le (by omega)
        have follows := follows_setLast (s := s)
          (t := { s with root := some { level := 0, tree := (last : Buffer α) } })
          rfl packed rfl total tail rfl rfl
        exact Ensures.pure ((Tree.storage_segment last).symm.trans follows.1)
          ⟨congrArg (0 + List.length ·) elements.symm, rfl, follows.2⟩
      · have bounded := packed.filled.bounded
        have whole : s.length = last.size := total.trans size
        have part : kept.toArray.size ≤ last.size := by
          rw [List.size_toArray]
          omega
        have settled := Tree.ensures_settleSegment (σ := σ) s.options
          { last with items := kept.toArray } (Nat.le_trans part bounded)
          (Nat.le_trans part packed.filled.fits)
        apply settled.bind
        intro swept remains
        have left : s.length - (last.size - kept.length) = kept.length := by omega
        exact Ensures.map (ensures_settle rfl remains left rfl rfl)
          fun s' follows => ⟨rfl, count, rfl, follows⟩

theorem ensures_removeAll [BEq α] (valid : s.Valid) (x : α) :
    Ensures (σ := σ) s.options.segmentCapacity s.storage (s.removeAll x)
      (fun answer => answer.2.storage)
      (fun answer => answer.1 = s.toList.countP (· == x) ∧
        s.Follows (s.toList.filter (· != x)) answer.2) := by
  have swept := ensures_removeIf (σ := σ) valid (fun y => (pure (y == x) : StateM Unit Bool)) ()
  rw [sift_pure] at swept
  refine swept.map fun answer removed => ⟨rfl, ?_, removed.follows⟩
  have count : answer.1 + (s.toList.filter (· != x)).length = 0 + s.toList.length :=
    removed.count
  have total := List.length_eq_countP_add_countP (· == x) (l := s.toList)
  have others : (s.toList.filter (· != x)).length = s.toList.countP fun y => ¬(y == x) = true := by
    rw [List.countP_eq_length_filter]
    simp [bne]
  omega

theorem ensures_remove [BEq α] (valid : s.Valid) (x : α) :
    Ensures (σ := σ) s.options.segmentCapacity s.storage (s.remove x)
      (fun answer => answer.2.storage)
      (fun answer => answer.1 = s.toList.any (· == x) ∧ s.Follows (s.toList.erase x) answer.2) := by
  unfold remove
  rw [valid.indexOf?_eq, List.erase_eq_eraseP', List.eraseP_eq_eraseIdx,
    ← List.findIdx?_isSome (p := (· == x))]
  cases found : s.toList.findIdx? (· == x) with
  | none => exact Ensures.pure rfl ⟨rfl, .refl valid⟩
  | some index =>
    have inside : index < s.length := by
      obtain ⟨bound, -⟩ := List.findIdx?_eq_some_iff_getElem.mp found
      rwa [valid.length_eq]
    exact (ensures_removeAt valid inside).map fun answer done => ⟨rfl, rfl, done.2⟩

end Segmented.Sequence
