import Segmented.Proofs.CheckedLength
import Segmented.Proofs.CheckedLocate

/-! Removal by value and by test with every check that is made: the searches and the single
removals make theirs, the removed elements are counted in words, and the loop over the matches has
to come to its end. -/

namespace Segmented

variable {σ α S ρ : Type}

namespace Checked

/-- Runs a search whose test begins in `state`, and answers the state in which the test ends. -/
def ask (inquiry : Inquiry S ρ) (state : S) : Checked σ (ρ × S) :=
  match inquiry.run.run state with
  | (.ok answer, state) => return (answer, state)
  | (.error fault, _) => throw fault

theorem ask_lift (plain : StateM S ρ) (state : S) :
    ask (σ := σ) (Inquiry.lift plain) state = pure (plain.run state) := rfl

end Checked

namespace Sequence

variable [Allocator σ α]

def checkedRemove [BEq α] (x : α) (s : Sequence α) : Checked σ (Bool × Sequence α) := do
  match ← Checked.ask (s.checkedFind (fun y => (pure (y == x) : StateM Unit Bool)) 0) () with
  | (none, _) => return (false, s)
  | (some index, _) =>
    if index < s.length then
      let (_, s) ← s.checkedRemoveAt index
      return (true, s)
    else
      return (false, s)

/-- Removes what passes the test from `start` on, one element after the other, as long as the search
finds one. -/
def checkedRemoveEach (test : α → StateM S Bool) :
    Nat → Nat → Nat → S → Sequence α → Checked σ (Nat × S × Sequence α)
  | 0, _, _, _, _ => throw .stalled
  | rounds + 1, start, removed, state, s => do
    match ← Checked.ask (s.checkedFind test start) state with
    | (none, state) => return (removed, state, s)
    | (some index, state) =>
      if index < s.length then
        let (_, s) ← s.checkedRemoveAt index
        let removed ← Word.add 64 removed 1
        checkedRemoveEach test rounds index removed state s
      else
        return (removed, state, s)

def checkedRemoveIf (test : α → StateM S Bool) (state : S) (s : Sequence α) :
    Checked σ (Nat × S × Sequence α) := do
  match s.root with
  | some { level := 0, tree := (buffer : Buffer α) } =>
    let (kept, state) := (sweep test buffer.items).run state
    let removed ← Word.sub buffer.size kept.size
    let swept : Buffer α := { buffer with items := kept }
    if removed = 0 then
      return (0, state, { s with root := some { level := 0, tree := swept } })
    else
      let swept ← Checked.lift (swept.settle s.options)
      let length ← Word.sub s.length removed
      let s ← Checked.lift
        ({ s with root := some { level := 0, tree := swept }, length }.bump).settle
      return (removed, state, s)
  | _ => s.checkedRemoveEach test (s.length + 1) 0 0 state

def checkedRemoveAll [BEq α] (x : α) (s : Sequence α) : Checked σ (Nat × Sequence α) := do
  let (removed, _, s) ← s.checkedRemoveIf (fun y => (pure (y == x) : StateM Unit Bool)) ()
  return (removed, s)

def checkedRetain (test : α → StateM S Bool) (state : S) (s : Sequence α) :
    Checked σ (Nat × S × Sequence α) :=
  s.checkedRemoveIf (fun x => do return !(← test x)) state

/-! ### No fault -/

variable [LawfulAllocator σ α] {s : Sequence α}

open Checked (Agrees agrees_lift agrees_pure)

namespace Valid

omit [Allocator σ α] [LawfulAllocator σ α] in
/-- What a search finds is a position of the sequence. -/
theorem lt_of_find (valid : s.Valid) {test : α → StateM S Bool} {start index : Nat}
    {state state' : S} (found : (s.find test start).run state = (some index, state')) :
    index < s.length := by
  have below := Tree.findsBelow_scan test s.toArray start (s.toArray.size - start) state
  rw [← valid.find_eq, found] at below
  rw [valid.length_eq]
  exact below index rfl

theorem agrees_checkedRemove [BEq α] (valid : s.Valid) (small : s.length < 2 ^ 64) (x : α) :
    Agrees (σ := σ) (s.checkedRemove x) (s.remove x) := by
  unfold checkedRemove remove indexOf? indexOfFrom?
  rw [valid.checkedFind_eq small, Checked.ask_lift, pure_bind]
  cases found : (s.find (fun y => (pure (y == x) : StateM Unit Bool)) 0).run () with
  | mk answer _ =>
    cases answer with
    | none => exact agrees_pure _
    | some index =>
      have inside := valid.lt_of_find found
      dsimp only
      rw [if_pos inside]
      exact (agrees_checkedRemoveAt valid small inside).map fun _ => rfl

/-- Every round removes one element, so that a round more than there are elements is never
needed. -/
theorem agrees_checkedRemoveEach (valid : s.Valid) (test : α → StateM S Bool)
    {rounds start removed : Nat} (enough : s.length ≤ rounds)
    (small : removed + s.length < 2 ^ 64) (state : S) :
    Agrees (σ := σ) (s.checkedRemoveEach test (rounds + 1) start removed state)
      (removeEach test rounds start removed state s) := by
  induction rounds generalizing s start removed state with
  | zero =>
    have beyond : ¬start < s.length := by omega
    rw [checkedRemoveEach, valid.checkedFind_eq (by omega), Checked.ask_lift, pure_bind, find,
      if_neg beyond]
    exact agrees_pure _
  | succ rounds ih =>
    rw [checkedRemoveEach, removeEach, valid.checkedFind_eq (by omega), Checked.ask_lift, pure_bind]
    cases found : (s.find test start).run state with
    | mk answer state' =>
      cases answer with
      | none => exact agrees_pure _
      | some index =>
        have inside := valid.lt_of_find found
        dsimp only
        rw [if_pos inside]
        apply (agrees_checkedRemoveAt valid (by omega) inside).bind
          (ensures_removeAt valid inside).keeps
        rintro ⟨_, s'⟩ ⟨-, follows⟩
        dsimp only at follows ⊢
        -- One element less and one round less: the rounds still suffice.
        have shorter : s'.length = s.length - 1 := by
          rw [follows.valid.length_eq, follows.elements,
            List.length_eraseIdx_of_lt (valid.length_eq ▸ inside), ← valid.length_eq]
        rw [Word.add_eq (by omega), liftM_ok_bind]
        exact ih follows.valid (by omega) (by omega) state'

theorem agrees_checkedRemoveIf (valid : s.Valid) (small : s.length < 2 ^ 64)
    (test : α → StateM S Bool) (state : S) :
    Agrees (σ := σ) (s.checkedRemoveIf test state) (s.removeIf test state) := by
  have each : Agrees (σ := σ) (s.checkedRemoveEach test (s.length + 1) 0 0 state)
      (removeEach test s.length 0 0 state s) :=
    valid.agrees_checkedRemoveEach test (Nat.le_refl _) (by omega) state
  unfold checkedRemoveIf
  cases valid with
  | empty root =>
    rw [removeIf_of_deep (by simp [root])]
    simp only [root]
    exact each
  | tree root packed total tail =>
    rename_i level tree front last
    cases level with
    | succ level =>
      rw [removeIf_of_deep (by simp [root])]
      simp only [root]
      exact each
    | zero =>
      obtain ⟨rfl, rfl⟩ := Tree.eq_of_row_segment packed.parts
      have size : s.length = last.size := total.trans (Buffer.length_toList last)
      have fewer := (sublist_sift test last.toList state).length_le
      rw [Buffer.length_toList] at fewer
      have swept : (sweep test last.items).run state =
          (((sift test last.toList).run state).1.toArray,
            ((sift test last.toList).run state).2) := by
        rw [sweep_eq]
        rfl
      rw [removeIf_of_segment root]
      simp only [root, swept, List.size_toArray]
      rw [Word.sub_eq fewer, liftM_ok_bind]
      split
      · exact agrees_pure _
      · refine (agrees_lift _).bind (Buffer.ensures_settle _ _).keeps fun swept _ => ?_
        rw [Word.sub_eq (by omega), liftM_ok_bind]
        exact (agrees_lift _).map fun _ => rfl

theorem agrees_checkedRemoveAll [BEq α] (valid : s.Valid) (small : s.length < 2 ^ 64) (x : α) :
    Agrees (σ := σ) (s.checkedRemoveAll x) (s.removeAll x) :=
  (valid.agrees_checkedRemoveIf small _ ()).map fun _ => rfl

theorem agrees_checkedRetain (valid : s.Valid) (small : s.length < 2 ^ 64)
    (test : α → StateM S Bool) (state : S) :
    Agrees (σ := σ) (s.checkedRetain test state) (s.retain test state) :=
  valid.agrees_checkedRemoveIf small _ state

end Valid

end Sequence

end Segmented
