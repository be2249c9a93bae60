import Segmented.Proofs.SearchLast
import Segmented.Proofs.Verdicts

/-! What a linear search asks its test, which may keep a state: the elements of the range in order,
each once, and none after the first yes. A search from the end asks in the other order. -/

namespace Segmented

variable {α S : Type}

/-- What comes of asking about the listed elements in order up to the first yes: how many came
before it, if there is one, and the state of the test. -/
inductive Asks (test : α → StateM S Bool) (xs : List α) (state : S) : Option Nat × S → Prop
  | yes {passed later : List α} {x : α} {state' : S} (parts : xs = passed ++ x :: later)
      (run : ((passed ++ [x]).mapM test).run state =
        (List.replicate passed.length false ++ [true], state')) :
      Asks test xs state (some passed.length, state')
  | no {state' : S} (run : (xs.mapM test).run state = (List.replicate xs.length false, state')) :
      Asks test xs state (none, state')

namespace Asks

variable {test : α → StateM S Bool} {x : α} {xs : List α} {state state' state'' : S}

theorem nil : Asks test [] state (none, state) := .no rfl

theorem head (passes : (test x).run state = (true, state')) :
    Asks test (x :: xs) state (some 0, state') := by
  have first : x :: xs = [] ++ x :: xs := rfl
  refine .yes first ?_
  rw [List.nil_append, run_mapM_cons, passes]
  rfl

theorem tail {found : Option Nat} (fails : (test x).run state = (false, state'))
    (rest : Asks test xs state' (found, state'')) :
    Asks test (x :: xs) state (found.map (· + 1), state'') := by
  cases rest with
  | yes parts run =>
    rename_i passed later y
    have longer : x :: xs = (x :: passed) ++ y :: later := congrArg (x :: ·) parts
    refine .yes longer ?_
    rw [List.cons_append, run_mapM_cons, fails]
    dsimp only
    rw [run]
    rfl
  | no run =>
    apply Asks.no
    rw [run_mapM_cons, fails]
    dsimp only
    rw [run]
    rfl

/-- A test that remembers what it was asked has been asked about the elements up to the first yes,
or about all of them. -/
theorem asked {test : Test α} {found : Option Nat} {record : Array α}
    (asks : Asks test.ask xs #[] (found, record)) :
    record.toList = match found with
      | some passed => xs.take (passed + 1)
      | none => xs := by
  cases asks with
  | yes parts run =>
    rename_i passed later y
    rw [run_verdicts] at run
    have same : (passed ++ [y]).toArray = record := congrArg Prod.snd run
    simp [← same, parts, List.take_append]
  | no run =>
    rw [run_verdicts] at run
    exact congrArg (fun outcome => outcome.2.toList) run.symm

end Asks

namespace Tree

variable {test : α → StateM S Bool}

theorem asks_scan (items : Array α) (index count : Nat) (state : S) :
    ∃ found state', (scan test items index count).run state =
        (found.map (index + ·), state') ∧
      Asks test ((items.toList.drop index).take count) state (found, state') := by
  induction count generalizing index state with
  | zero => exact ⟨none, state, rfl, .nil⟩
  | succ count ih =>
    rw [scan]
    cases here : items[index]? with
    | none =>
      have passed : items.toList.drop index = [] := List.drop_of_length_le (by simpa using here)
      rw [passed]
      exact ⟨none, state, rfl, .nil⟩
    | some x =>
      obtain ⟨inside, rfl⟩ := Array.getElem?_eq_some_iff.mp here
      rw [List.drop_eq_getElem_cons (by simpa using inside), List.take_succ_cons,
        Array.getElem_toList]
      dsimp only
      rw [StateT.run_bind]
      cases answer : (test items[index]).run state with
      | mk passes state' =>
        cases passes with
        | true => exact ⟨some 0, state', rfl, .head answer⟩
        | false =>
          obtain ⟨found, state'', run, asks⟩ := ih (index + 1) state'
          refine ⟨found.map (· + 1), state'', ?_, asks.tail answer⟩
          refine Eq.trans run ?_
          rw [Option.map_map]
          congr 2
          funext passed
          exact Nat.add_right_comm ..

theorem asks_scanBack (items : Array α) (start : Nat) {count : Nat}
    (inside : start + count ≤ items.size) (state : S) :
    ∃ found state', (scanBack test items start count).run state =
        (found.map (start + count - 1 - ·), state') ∧
      Asks test ((items.toList.drop start).take count).reverse state (found, state') := by
  induction count generalizing state with
  | zero => exact ⟨none, state, rfl, .nil⟩
  | succ count ih =>
    have bound : start + count < items.size := inside
    have here : items[start + count]? = some items[start + count] :=
      Array.getElem?_eq_getElem bound
    have last : (items.toList.drop start)[count]? = some items[start + count] := by
      rw [List.getElem?_drop, Array.getElem?_toList, here]
    rw [scanBack, here, List.take_add_one, last, Option.toList_some, List.reverse_concat]
    dsimp only
    rw [StateT.run_bind]
    cases answer : (test items[start + count]).run state with
    | mk passes state' =>
      cases passes with
      | true => exact ⟨some 0, state', rfl, .head answer⟩
      | false =>
        obtain ⟨found, state'', run, asks⟩ := ih (Nat.le_of_lt bound) state'
        refine ⟨found.map (· + 1), state'', ?_, asks.tail answer⟩
        refine Eq.trans run ?_
        rw [Option.map_map]
        congr 2
        funext passed
        exact (Nat.sub_sub ..).trans (congrArg (start + count - ·) (Nat.add_comm ..))

end Tree

namespace Sequence

variable {s : Sequence α} {test : α → StateM S Bool} {start stop : Nat}

/-- The elements of a range. -/
def slice (start stop : Nat) (s : Sequence α) : List α :=
  (s.toList.drop start).take (stop - start)

theorem find_of_lt (inside : start < s.length) :
    (.ok <$> s.find test start : StateM S (Except Error (Option Nat))) =
      s.findIn test start s.length := by
  have range : s.checkRange start s.length = .ok () :=
    if_pos ⟨Nat.le_of_lt inside, Nat.le_refl _⟩
  rw [find, if_pos inside, findIn, range]

theorem findLast_eq :
    (.ok <$> s.findLast test : StateM S (Except Error (Option Nat))) =
      s.findLastIn test 0 s.length := by
  have range : s.checkRange 0 s.length = .ok () := if_pos ⟨Nat.zero_le _, Nat.le_refl _⟩
  rw [findLast, findLastIn, range]

theorem Valid.asks_findIn (valid : s.Valid) (order : start ≤ stop) (inside : stop ≤ s.length)
    (state : S) :
    ∃ found state', (s.findIn test start stop).run state =
        (.ok (found.map (start + ·)), state') ∧
      Asks test (s.slice start stop) state (found, state') := by
  have length : s.length = s.toArray.size := valid.length_eq
  have range : s.checkRange start stop = .ok () := if_pos ⟨order, inside⟩
  obtain ⟨found, state', run, asks⟩ := @Tree.asks_scan _ _ test s.toArray start (stop - start) state
  refine ⟨found, state', ?_, asks⟩
  rw [findIn, range]
  dsimp only
  rw [valid.findWithin_eq, Nat.min_eq_left (length ▸ inside), StateT.run_map, run]
  rfl

theorem Valid.asks_findLastIn (valid : s.Valid) (order : start ≤ stop)
    (inside : stop ≤ s.length) (state : S) :
    ∃ found state', (s.findLastIn test start stop).run state =
        (.ok (found.map (stop - 1 - ·)), state') ∧
      Asks test (s.slice start stop).reverse state (found, state') := by
  have length : s.length = s.toArray.size := valid.length_eq
  have range : s.checkRange start stop = .ok () := if_pos ⟨order, inside⟩
  have whole : start + (stop - start) = stop := Nat.add_sub_cancel' order
  have fits : start + (stop - start) ≤ s.toArray.size := by omega
  obtain ⟨found, state', run, asks⟩ := @Tree.asks_scanBack _ _ test s.toArray start _ fits state
  refine ⟨found, state', ?_, asks⟩
  rw [findLastIn, range]
  dsimp only
  rw [valid.findLastWithin_eq, Nat.min_eq_left (length ▸ inside), StateT.run_map, run, whole]
  rfl

variable [BEq α] [Inhabited α]

/-- A search of a range refuses a range that is none without asking its test. Of any other it asks
about the elements in order, from the front or from the end, each once and none after the first
yes, and answers the position of that one in the sequence; all answers may depend on what was asked
before. A search of the whole sequence, or of it from a position on, is that of the range. -/
theorem Reachable.searches_ask_in_order (reachable : s.Reachable) (test : α → StateM S Bool)
    (start stop : Nat) :
    (stop < start ∨ s.length < stop →
      s.findIn test start stop = pure (.error (.range start stop s.length)) ∧
      s.findLastIn test start stop = pure (.error (.range start stop s.length))) ∧
    (start ≤ stop → stop ≤ s.length → ∀ state,
      (∃ found state', (s.findIn test start stop).run state =
          (.ok (found.map (start + ·)), state') ∧
        Asks test (s.slice start stop) state (found, state')) ∧
      ∃ found state', (s.findLastIn test start stop).run state =
          (.ok (found.map (stop - 1 - ·)), state') ∧
        Asks test (s.slice start stop).reverse state (found, state')) ∧
    (start < s.length →
      (.ok <$> s.find test start : StateM S (Except Error (Option Nat))) =
        s.findIn test start s.length) ∧
    (s.length ≤ start → s.find test start = pure none) ∧
    (.ok <$> s.findLast test : StateM S (Except Error (Option Nat))) =
      s.findLastIn test 0 s.length := by
  have valid := reachable.valid
  refine ⟨?_, ?_, find_of_lt, ?_, findLast_eq⟩
  · intro invalid
    have range : s.checkRange start stop = .error (.range start stop s.length) :=
      if_neg (by omega)
    constructor
    · rw [findIn, range]
    · rw [findLastIn, range]
  · intro order inside state
    exact ⟨valid.asks_findIn order inside state, valid.asks_findLastIn order inside state⟩
  · intro beyond
    rw [find, if_neg (by omega)]

/-- Of the positions from 10 below 35, in three segments, a test that says yes when it is asked for
the ninth time is asked about nine from either end. -/
theorem searches_ask_in_order_nine_times :
    let s : Sequence Nat := onHeap [.extend (List.range 40)]
    let test : Test Nat := ⟨fun asked _ => asked.size == 8⟩
    s.segmentCount = 3 ∧
      (∃ asked : Array Nat, (s.findIn test.ask 10 35).run #[] = (.ok (some 18), asked) ∧
        asked.toList = List.range' 10 9) ∧
      ∃ asked : Array Nat, (s.findLastIn test.ask 10 35).run #[] = (.ok (some 26), asked) ∧
        asked.toList = (List.range' 26 9).reverse := by
  intro s test
  obtain ⟨-, searches, -⟩ := (reachable_onHeap _).searches_ask_in_order (s := s) test.ask 10 35
  obtain ⟨⟨first, asked, run, asks⟩, ⟨last, asked', run', asks'⟩⟩ :=
    searches (by decide) (by decide +kernel) #[]
  have answer : ((s.findIn test.ask 10 35).run #[]).1 = .ok (some 18) := by decide +kernel
  have answer' : ((s.findLastIn test.ask 10 35).run #[]).1 = .ok (some 26) := by decide +kernel
  have front : (s.slice 10 35).take 9 = List.range' 10 9 := by decide +kernel
  have back : (s.slice 10 35).reverse.take 9 = (List.range' 26 9).reverse := by decide +kernel
  rw [run] at answer
  rw [run'] at answer'
  obtain ⟨passed, rfl, same⟩ := Option.map_eq_some_iff.mp (Except.ok.inj answer)
  obtain ⟨passed', rfl, same'⟩ := Option.map_eq_some_iff.mp (Except.ok.inj answer')
  obtain rfl : passed = 8 := by omega
  obtain rfl : passed' = 8 := by omega
  exact ⟨by decide +kernel, ⟨asked, run, asks.asked.trans front⟩, asked', run',
    asks'.asked.trans back⟩

end Sequence

end Segmented
