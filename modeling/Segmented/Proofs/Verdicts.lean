import Segmented.Proofs.Depth
import Segmented.Proofs.Removal
import Segmented.Proofs.WellFormed

/-! Removal by a test that may depend on what it was asked before. The test is asked once about
every element, from the first to the last, its verdicts decide who stays, and the turns of search
and removal that a deep sequence takes come to an end. -/

namespace Segmented

variable {σ α S : Type}

/-! ### Lists -/

/-- The listed elements whose verdict is not the one that removes, in order. -/
def survivors (removes : Bool) (xs : List α) (verdicts : List Bool) : List α :=
  ((xs.zip verdicts).filter (·.2 != removes)).map Prod.fst

theorem survivors_cons (removes verdict : Bool) (x : α) (xs : List α) (verdicts : List Bool) :
    survivors removes (x :: xs) (verdict :: verdicts) =
      if verdict = removes then survivors removes xs verdicts
      else x :: survivors removes xs verdicts := by
  by_cases same : verdict = removes <;> simp [survivors, same]

theorem count_add_length_survivors {xs : List α} {verdicts : List Bool}
    (each : verdicts.length = xs.length) (removes : Bool) :
    verdicts.count removes + (survivors removes xs verdicts).length = xs.length := by
  induction xs generalizing verdicts with
  | nil =>
    obtain rfl := List.eq_nil_of_length_eq_zero each
    rfl
  | cons x xs ih =>
    obtain ⟨verdict, verdicts, rfl⟩ := List.exists_cons_of_length_eq_add_one each
    have rest := ih (Nat.succ.inj each)
    rw [survivors_cons, List.count_cons]
    by_cases same : verdict = removes
    · simp only [same, if_true, beq_self_eq_true, List.length_cons]
      omega
    · simp only [same, if_false, beq_iff_eq, List.length_cons]
      omega

theorem survivors_map_not (xs : List α) (verdicts : List Bool) :
    survivors true xs (verdicts.map not) = survivors false xs verdicts := by
  induction xs generalizing verdicts with
  | nil => rfl
  | cons x xs ih =>
    cases verdicts with
    | nil => rfl
    | cons verdict verdicts =>
      rw [List.map_cons, survivors_cons, survivors_cons, ih]
      cases verdict <;> rfl

/-! ### Questions in order -/

theorem run_mapM_cons {τ : Type} (step : α → StateM S τ) (x : α) (xs : List α) (state : S) :
    ((x :: xs).mapM step).run state =
      let asked := (step x).run state
      let later := (xs.mapM step).run asked.2
      (asked.1 :: later.1, later.2) := by
  rw [List.mapM_cons]
  rfl

theorem length_verdicts (test : α → StateM S Bool) (xs : List α) (state : S) :
    ((xs.mapM test).run state).1.length = xs.length := by
  induction xs generalizing state with
  | nil => rfl
  | cons x xs ih =>
    rw [run_mapM_cons]
    exact congrArg (· + 1) (ih _)

/-- What is kept of the listed elements are those that survive the verdicts. -/
theorem run_sift (test : α → StateM S Bool) (xs : List α) (state : S) :
    (Sequence.sift test xs).run state =
      let judged := (xs.mapM test).run state
      (survivors true xs judged.1, judged.2) := by
  induction xs generalizing state with
  | nil => rfl
  | cons x xs ih =>
    rw [Sequence.sift, StateT.run_bind, run_mapM_cons]
    cases (test x).run state with
    | mk verdict state' =>
      cases verdict with
      | true => exact ih state'
      | false =>
        refine Eq.trans ?_ (congrArg (fun outcome => (x :: outcome.1, outcome.2)) (ih state'))
        rfl

theorem mapM_not (keep : α → StateM S Bool) (xs : List α) :
    (xs.mapM fun x => do return !(← keep x)) = List.map not <$> xs.mapM keep := by
  induction xs with
  | nil => rfl
  | cons x xs ih =>
    rw [List.mapM_cons, List.mapM_cons, ih]
    simp

/-- What a test answers about the listed elements when it is asked about one after the other. -/
def Test.verdicts (test : Test α) (xs : List α) : List Bool :=
  xs.mapIdx fun index x => test.answer (xs.take index).toArray x

/-- A test that remembers what it was asked has been asked about each element once, in order. -/
theorem run_mapM_ask (test : Test α) (xs : List α) (asked : Array α) :
    (xs.mapM test.ask).run asked =
      (xs.mapIdx fun index x => test.answer (asked ++ (xs.take index).toArray) x,
        asked ++ xs.toArray) := by
  induction xs generalizing asked with
  | nil => exact congrArg (([], ·)) Array.append_empty.symm
  | cons x xs ih =>
    have asks : (test.ask x).run asked = (test.answer asked x, asked.push x) := rfl
    rw [run_mapM_cons, asks]
    dsimp only
    rw [ih]
    simp [List.mapIdx_cons]

theorem run_verdicts (test : Test α) (xs : List α) :
    (xs.mapM test.ask).run #[] = (test.verdicts xs, xs.toArray) := by
  rw [run_mapM_ask]
  simp [Test.verdicts]

/-! ### Sequences -/

namespace Sequence

variable [Allocator σ α] {s : Sequence α}

/-- Search and removal by turns, until the search finds nothing: from where it goes on, the number
of elements that have gone, the state of the test, the sequence and the depot, and what comes of
them in the end. -/
inductive Turns (test : α → StateM S Bool) :
    Nat → Nat → S → Sequence α → Depot σ → (Nat × S × Sequence α) × Depot σ → Prop
  | stop {start removed : Nat} {state state' : S} {s : Sequence α} {depot : Depot σ}
      (nothing : (s.find test start).run state = (none, state')) :
      Turns test start removed state s depot ((removed, state', s), depot)
  | remove {start index removed : Nat} {state state' : S} {s s' : Sequence α} {x : α}
      {depot depot' : Depot σ} {outcome : (Nat × S × Sequence α) × Depot σ}
      (found : (s.find test start).run state = (some index, state'))
      (gone : (s.removeAt index).run depot = ((some x, s'), depot'))
      (rest : Turns test index (removed + 1) state' s' depot' outcome) :
      Turns test start removed state s depot outcome

variable [LawfulAllocator σ α]

/-- The turns come to an end, each removal that is tried succeeds, and no bound on them that the
length admits makes a difference. -/
theorem turns_removeEach (valid : s.Valid) (test : α → StateM S Bool) {bound start : Nat}
    (enough : s.length - start ≤ bound) (removed : Nat) (state : S) {depot : Depot σ}
    (sound : LawfulAllocator.Sound depot.allocator) :
    Turns test start removed state s depot
      ((removeEach test bound start removed state s).run depot) := by
  induction bound generalizing s start removed state depot with
  | zero =>
    apply Turns.stop
    unfold find
    rw [if_neg (by omega)]
    rfl
  | succ bound ih =>
    rw [removeEach]
    cases searched : (s.find test start).run state with
    | mk found state' =>
      cases found with
      | none => exact .stop searched
      | some index =>
        have searched' := searched
        rw [valid.find_eq] at searched'
        obtain ⟨order, inside, -⟩ := sift_of_some searched'
        have length := valid.length_eq
        have within : index < s.length := length ▸ inside
        have ensured := ensures_removeAt valid within depot sound
        have here : s.toList[index]? = some s.toArray[index] := by
          rw [← Array.getElem_toList]
          exact List.getElem?_eq_getElem _
        rw [here] at ensured
        cases gone : (s.removeAt index).run depot with
        | mk answer depot' =>
          rw [gone] at ensured
          obtain ⟨_, s'⟩ := answer
          obtain ⟨extended, rfl, follows⟩ := ensured
          have shorter : s'.length = s.length - 1 := by
            rw [follows.valid.length_eq, follows.elements,
              List.length_eraseIdx_of_lt (length ▸ within), ← length]
          have fewer : s'.length - index ≤ bound := by omega
          refine .remove searched gone ?_
          dsimp only
          rw [StateT.run_bind, gone]
          exact ih follows.valid fewer (removed + 1) state' extended.sound

/-- The test has been asked once about each element, from the first to the last; those with the
verdict that removes have gone and are counted, and the others are there as before. -/
structure Judged (removes : Bool) (xs : List α) (judged : List Bool × S)
    (answer : Nat × S × Sequence α) : Prop where
  count : answer.1 = judged.1.count removes
  state : answer.2.1 = judged.2
  elements : answer.2.2.toList = survivors removes xs judged.1

theorem judged_removeIf (valid : s.Valid) (test : α → StateM S Bool) (state : S)
    {depot : Depot σ} (sound : LawfulAllocator.Sound depot.allocator) :
    Judged true s.toList ((s.toList.mapM test).run state)
      ((s.removeIf test state).run depot).1 := by
  obtain ⟨count, asked, follows⟩ := (ensures_removeIf valid test state depot sound).2
  rw [run_sift] at count asked follows
  have total := count_add_length_survivors (length_verdicts test s.toList state) true
  refine ⟨?_, asked, follows.elements⟩
  simp only [List.drop_zero] at count
  omega

theorem judged_retain (valid : s.Valid) (keep : α → StateM S Bool) (state : S)
    {depot : Depot σ} (sound : LawfulAllocator.Sound depot.allocator) :
    Judged false s.toList ((s.toList.mapM keep).run state)
      ((s.retain keep state).run depot).1 := by
  have judged := judged_removeIf valid (fun x => do return !(← keep x)) state sound
  rw [mapM_not] at judged
  obtain ⟨count, asked, elements⟩ := judged
  refine ⟨count.trans ?_, asked, elements.trans (survivors_map_not ..)⟩
  exact List.count_map_of_injective _ not Bool.involutive_not.injective false

theorem turns_removeIf (valid : s.Valid) (several : s.depth ≠ 1) (test : α → StateM S Bool)
    (state : S) {depot : Depot σ} (sound : LawfulAllocator.Sound depot.allocator) :
    Turns test 0 0 state s depot ((s.removeIf test state).run depot) := by
  rw [removeIf_of_deep]
  · exact turns_removeEach valid test (Nat.le_refl _) 0 state sound
  · intro segment root
    apply several
    rw [depth, root]

variable [BEq α] [Inhabited α]

theorem run_removeIf (valid : s.Valid) (live : s.disposed = false) (test : Test α)
    {depot : Depot σ} (sound : LawfulAllocator.Sound depot.allocator) :
    ∃ s' depot', ((Edit.removeIf test).apply s).run depot =
        ((.ok (.removed ((test.verdicts s.toList).count true) s.toArray), s'), depot') ∧
      s'.toList = survivors true s.toList (test.verdicts s.toList) := by
  have judged := judged_removeIf valid test.ask #[] sound
  rw [run_verdicts] at judged
  have accepted : (Edit.removeIf test).refusal? s = none := by
    simp [Edit.refusal?, Edit.violation?, live]
  cases run : (s.removeIf test.ask #[]).run depot with
  | mk answer depot' =>
    obtain ⟨count, asked, s'⟩ := answer
    rw [run] at judged
    obtain ⟨rfl, rfl, elements⟩ := judged
    refine ⟨s', depot', ?_, elements⟩
    rw [Edit.run_apply_of_accepted accepted, Edit.perform, StateT.run_bind, run]
    rfl

theorem run_retain (valid : s.Valid) (live : s.disposed = false) (test : Test α)
    {depot : Depot σ} (sound : LawfulAllocator.Sound depot.allocator) :
    ∃ s' depot',
      ((Edit.retain test).apply s).run depot = ((.ok (.retained s.toArray), s'), depot') ∧
      s'.toList = survivors false s.toList (test.verdicts s.toList) := by
  have judged := judged_retain valid test.ask #[] sound
  rw [run_verdicts] at judged
  have accepted : (Edit.retain test).refusal? s = none := by
    simp [Edit.refusal?, Edit.violation?, live]
  cases run : (s.retain test.ask #[]).run depot with
  | mk answer depot' =>
    obtain ⟨count, asked, s'⟩ := answer
    rw [run] at judged
    obtain ⟨-, rfl, elements⟩ := judged
    refine ⟨s', depot', ?_, elements⟩
    rw [Edit.run_apply_of_accepted accepted, Edit.perform, StateT.run_bind, run]
    rfl

/-- Removal asks its test once about each element, from the first to the last, whatever the test
remembers and whatever the shape of the sequence. It removes those that pass, counts them and
keeps the order of the others; of several segments, the turns of search and removal come to an
end. Retention does the same with the answers negated. -/
theorem Reachable.removal_asks_once (reachable : s.Reachable) (live : s.disposed = false)
    (test : α → StateM S Bool) (state : S) (depot : Depot σ)
    (sound : LawfulAllocator.Sound depot.allocator) :
    Judged true s.toList ((s.toList.mapM test).run state)
        ((s.removeIf test state).run depot).1 ∧
      Judged false s.toList ((s.toList.mapM test).run state)
        ((s.retain test state).run depot).1 ∧
      (s.depth ≠ 1 →
        Turns test 0 0 state s depot ((s.removeIf test state).run depot) ∧
        Turns (fun x => do return !(← test x)) 0 0 state s depot
          ((s.retain test state).run depot)) ∧
      ∀ recorded : Test α,
        (∃ s' depot', ((Edit.removeIf recorded).apply s).run depot =
            ((.ok (.removed ((recorded.verdicts s.toList).count true) s.toArray), s'), depot') ∧
          s'.toList = survivors true s.toList (recorded.verdicts s.toList)) ∧
        ∃ s' depot', ((Edit.retain recorded).apply s).run depot =
            ((.ok (.retained s.toArray), s'), depot') ∧
          s'.toList = survivors false s.toList (recorded.verdicts s.toList) := by
  have valid := reachable.valid
  refine ⟨judged_removeIf valid test state sound, judged_retain valid test state sound,
    fun several => ⟨?_, ?_⟩, fun recorded => ⟨?_, ?_⟩⟩
  · exact turns_removeIf valid several test state sound
  · exact turns_removeIf valid several _ state sound
  · exact run_removeIf valid live recorded sound
  · exact run_retain valid live recorded sound

/-- Every third of forty elements in three segments, by a test that only counts its calls. -/
theorem removal_asks_once_by_thirds :
    let s : Sequence Nat := onHeap [.extend (List.range 40)]
    let test : Test Nat := ⟨fun asked _ => asked.size % 3 == 0⟩
    s.disposed = false ∧ s.depth ≠ 1 ∧ ∃ s' depot',
      ((Edit.removeIf test).apply s).run ({ allocator := ⟨⟩ } : Depot (Heap Nat)) =
        ((.ok (.removed 14 (Array.range 40)), s'), depot') ∧
      s'.toList = (List.range 40).filter (· % 3 != 0) := by
  intro s test
  have live : s.disposed = false := by decide +kernel
  have several : s.depth ≠ 1 := by decide +kernel
  obtain ⟨-, -, -, recorded⟩ := (reachable_onHeap _).removal_asks_once live test.ask #[]
    ({ allocator := ⟨⟩ } : Depot (Heap Nat)) trivial
  obtain ⟨⟨s', depot', run, elements⟩, -⟩ := recorded test
  have count : (test.verdicts s.toList).count true = 14 := by decide +kernel
  have asked : s.toArray = Array.range 40 := by decide +kernel
  have kept : survivors true s.toList (test.verdicts s.toList) =
      (List.range 40).filter (· % 3 != 0) := by decide +kernel
  rw [count, asked] at run
  exact ⟨live, several, s', depot', run, elements.trans kept⟩

end Sequence

end Segmented
