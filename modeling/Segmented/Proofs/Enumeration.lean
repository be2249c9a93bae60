import Mathlib.Data.List.Basic

/-! What the calls of a step answer, one after the other, and what it takes for them to yield the
items of a list. -/

namespace Segmented

variable {α ι ρ : Type}

/-- What so many calls of a step answer, one after the other. -/
def answers {m : Type → Type} [Monad m] (next : ι → m (ρ × ι)) : Nat → ι → m (List ρ × ι)
  | 0, state => pure ([], state)
  | count + 1, state => do
    let (earlier, state) ← answers next count state
    let (answer, state) ← next state
    return (earlier ++ [answer], state)

/-- Steps that another step follows state by state answer the same. -/
theorem answers_image {m : Type → Type} [Monad m] [LawfulMonad m] {κ : Type} {next : ι → m (ρ × ι)}
    {next' : κ → m (ρ × κ)} {image : ι → κ}
    (follows : ∀ state, next' (image state) = do
      let (answer, state) ← next state
      return (answer, image state)) (count : Nat) (state : ι) :
    answers next' count (image state) = do
      let (earlier, state) ← answers next count state
      return (earlier, image state) := by
  induction count with
  | zero => simp [answers]
  | succ count ih => simp [answers, ih, follows]

/-- What a traversal and a copy of it answer, if each is advanced where the schedule says so: the
traversal where it is true, the copy where it is false. -/
def sideBySide (next : ι → ρ × ι) : List Bool → ι → ι → List ρ × List ρ
  | [], _, _ => ([], [])
  | true :: schedule, original, copy =>
    let (answer, original) := next original
    let (answers, copied) := sideBySide next schedule original copy
    (answer :: answers, copied)
  | false :: schedule, original, copy =>
    let (answer, copy) := next copy
    let (answers, copied) := sideBySide next schedule original copy
    (answers, answer :: copied)

/-- Answers of calls that yield the listed items, and nothing after them. -/
def yielded (xs : List ρ) (count : Nat) : List (Option ρ) :=
  (xs.take count).map some ++ List.replicate (count - xs.length) none

@[simp] theorem yielded_zero (xs : List ρ) : yielded xs 0 = [] := by simp [yielded]

theorem yielded_cons (xs : List ρ) (count : Nat) :
    yielded xs (count + 1) = xs.head? :: yielded xs.tail count := by
  cases xs with
  | nil => simp [yielded, List.replicate_succ]
  | cons x rest => simp [yielded]

theorem yielded_concat (xs : List ρ) (count : Nat) :
    yielded xs (count + 1) = yielded xs count ++ [(xs.drop count).head?] := by
  induction count generalizing xs with
  | zero => simp [yielded_cons]
  | succ count ih =>
    rw [yielded_cons, ih, yielded_cons xs count, List.cons_append, List.drop_tail]

/-- The step yields the first of the items that the state has ahead of it. -/
structure Advances (next : ι → Option ρ × ι) (ahead : ι → List ρ) : Prop where
  answer (state : ι) : (next state).1 = (ahead state).head?
  rest (state : ι) : ahead (next state).2 = (ahead state).tail

namespace Advances

variable {next : ι → Option ρ × ι} {ahead : ι → List ρ}

theorem ahead_of_some (advances : Advances next ahead) {state state' : ι} {x : ρ}
    (step : next state = (some x, state')) : ahead state = x :: ahead state' := by
  have answer := advances.answer state
  have rest := advances.rest state
  rw [step] at answer rest
  rw [rest, List.cons_head?_tail answer.symm]

theorem ahead_of_none (advances : Advances next ahead) {state state' : ι}
    (step : next state = (none, state')) : ahead state = [] ∧ ahead state' = [] := by
  have answer := advances.answer state
  have rest := advances.rest state
  rw [step] at answer rest
  have none : ahead state = [] := List.head?_eq_none_iff.mp answer.symm
  exact ⟨none, by rw [rest, none, List.tail_nil]⟩

theorem answers_eq (advances : Advances next ahead) (count : Nat) (state : ι) :
    (answers (m := Id) next count state).1 = yielded (ahead state) count ∧
      ahead (answers (m := Id) next count state).2 = (ahead state).drop count := by
  induction count with
  | zero => exact ⟨(yielded_zero _).symm, rfl⟩
  | succ count ih =>
    obtain ⟨earlier, rest⟩ := ih
    constructor
    · rw [yielded_concat, ← rest, ← advances.answer, ← earlier]
      rfl
    · rw [← List.tail_drop, ← rest, ← advances.rest]
      rfl

theorem sideBySide_eq (advances : Advances next ahead) (schedule : List Bool) (original copy : ι) :
    sideBySide next schedule original copy =
      (yielded (ahead original) (schedule.count true),
        yielded (ahead copy) (schedule.count false)) := by
  induction schedule generalizing original copy with
  | nil => simp [sideBySide]
  | cons turn schedule ih =>
    cases turn <;> simp [sideBySide, ih, yielded_cons, advances.answer, advances.rest]

end Advances

/-- From here on the step yields the listed items in order, counts those to come, and goes on
yielding nothing after the last; a copy that is made on the way goes on by itself. -/
structure Enumerates (next : ι → Option ρ × ι) (remaining : ι → Nat) (start : ι) (xs : List ρ) :
    Prop where
  answers (count : Nat) : (answers (m := Id) next count start).1 = yielded xs count
  remaining (count : Nat) :
    remaining (Segmented.answers (m := Id) next count start).2 = xs.length - min count xs.length
  rest (count more : Nat) :
    (Segmented.answers (m := Id) next more (Segmented.answers (m := Id) next count start).2).1 =
      yielded (xs.drop count) more
  copies (count : Nat) (schedule : List Bool) :
    let here := (Segmented.answers (m := Id) next count start).2
    sideBySide next schedule here here = (yielded (xs.drop count) (schedule.count true),
      yielded (xs.drop count) (schedule.count false))

theorem Advances.enumerates {next : ι → Option ρ × ι} {ahead : ι → List ρ}
    (advances : Advances next ahead) {remaining : ι → Nat}
    (counts : ∀ state, remaining state = (ahead state).length →
      remaining (next state).2 = (ahead (next state).2).length)
    {start : ι} (total : remaining start = (ahead start).length) :
    Enumerates next remaining start (ahead start) where
  answers count := (advances.answers_eq count start).1
  remaining count := by
    have counted : remaining (Segmented.answers (m := Id) next count start).2 =
        (ahead (Segmented.answers (m := Id) next count start).2).length := by
      induction count with
      | zero => exact total
      | succ count ih => exact counts _ ih
    rw [counted, (advances.answers_eq count start).2, List.length_drop]
    omega
  rest count more := by
    rw [(advances.answers_eq more _).1, (advances.answers_eq count start).2]
  copies count schedule := by
    dsimp only
    rw [advances.sideBySide_eq, (advances.answers_eq count start).2]

end Segmented
