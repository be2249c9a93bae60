import Segmented.Proofs.CheckedArrange
import Segmented.Proofs.CheckedFilter
import Segmented.Proofs.CheckedInPlace

/-! Every call with all the checks that it makes. A call that does not have to count beyond a word
passes them all and ends as the plain call does. -/

namespace Segmented.Edit

variable {σ α : Type}

/-! ### What a call counts to -/

/-- The largest number that the call may have to count to. An order in place looks for the children
of every position of a heap. -/
def extent (s : Sequence α) : Edit α → Nat
  | push _ | insert _ _ => s.length + 1
  | extend xs => s.length + xs.length
  | ensure length _ | resize length _ => max s.length length
  | placeAt index _ => max s.length (index + 1)
  | copyFrom source _ _ _ => max s.length source.size
  | sortUnstable _ => 2 * s.length - 1
  | _ => s.length

/-- A comparator, if the call has one, compares by a strict weak order. -/
def Compares : Edit α → Prop
  | sort order | sortUnstable order => IsStrictWeakOrder α fun x y => order x y = .lt
  | _ => True

/-- What the call counts fits in a word of 64 bits, and what it compares by is an order. -/
structure Fits (s : Sequence α) (edit : Edit α) : Prop where
  extent : edit.extent s < 2 ^ 64
  compares : edit.Compares

/-! ### The checked calls -/

/-- Answers what a position holds and stores `x` there. -/
def checkedStoring (position : Nat) (x : α) (s : Sequence α) :
    Except Fault (Option α × Sequence α) := do
  let old ← s.checkedGet? position
  let s ← s.checkedModify position fun _ => x
  return (old, s)

variable [Allocator σ α] [BEq α] [Inhabited α]

def checkedPerform (s : Sequence α) : Edit α → Checked σ (Reply α × Sequence α)
  | push x => do return (.done, ← s.checkedPush x)
  | extend xs => do return (.done, ← s.checkedExtend xs)
  | pop => do
    let (removed, s) ← s.checkedPop
    return (.option removed, s)
  | removeLast => do
    let (removed, s) ← s.checkedPop
    return (perform.answer removed, s)
  | insert index x => do return (.done, ← s.checkedInsert index x)
  | removeAt index => do
    let (removed, s) ← s.checkedRemoveAt index
    return (perform.answer removed, s)
  | set index x => do
    let (old, s) ← checkedStoring index x s
    return (perform.answer old, s)
  | assign index x => do return (.done, ← s.checkedModify index fun _ => x)
  | replace index x => do
    let (old, s) ← checkedStoring index x s
    return (.option old, s)
  | replaceLast x => do
    let old := s.last?
    return (.option old, ← s.updateTail fun buffer => pure (buffer.replaceLast x))
  | replaceFlat index x => do
    if s.isFlat then
      let (old, s) ← checkedStoring index x s
      return (.option old, s)
    else
      return (.deep, s)
  | exchange first second => do return (.done, ← s.checkedExchange first second)
  | clear => do return (.done, ← Checked.lift s.clear)
  | dispose => do return (.done, ← Checked.lift s.dispose)
  | reverse => do return (.done, ← s.checkedReverse)
  | sort order => do return (.done, ← s.checkedSort order)
  | sortUnstable order => do return (.done, ← s.checkedSortUnstable order)
  | ensure length x => do return (.done, ← s.checkedEnsure length x)
  | resize length x => do return (.done, ← s.checkedResize length x)
  | truncate length => do return (.done, ← s.checkedTruncate length)
  | placeAt index x => do return (.done, ← s.checkedPlaceAt index x)
  | copyFrom source start index count => do
    return (.done, ← s.checkedCopyFrom source start index count)
  | remove x => do
    let (found, s) ← s.checkedRemove x
    return (.flag found, s)
  | removeAll x => do
    let (count, s) ← s.checkedRemoveAll x
    return (.count count, s)
  | removeIf test => do
    let (count, asked, s) ← s.checkedRemoveIf test.ask #[]
    return (.removed count asked, s)
  | retain test => do
    let (_, asked, s) ← s.checkedRetain test.ask #[]
    return (.retained asked, s)

/-- Refuses a call or carries it out with all its checks. -/
def checkedApply (edit : Edit α) (s : Sequence α) :
    Checked σ (Except Failure (Reply α) × Sequence α) := do
  match edit.refusal? s with
  | some failure => return (.error failure, s)
  | none =>
    let (reply, s) ← edit.checkedPerform s
    return (.ok reply, s)

/-! ### No fault -/

variable {s : Sequence α}

open Checked (agrees_check agrees_lift agrees_pure)

omit [BEq α] [Inhabited α] in
theorem checkedStoring_eq (valid : s.Valid) (small : s.length < 2 ^ 64) (position : Nat) (x : α) :
    checkedStoring position x s = .ok (s.get? position, s.modify position fun _ => x) := by
  unfold checkedStoring
  rw [Sequence.checkedGet?_eq small, valid.checkedModify_eq small]
  rfl

variable [LawfulAllocator σ α]

omit [BEq α] [Inhabited α] in
theorem agrees_replaceLast (valid : s.Valid) (x : α) :
    Checked.Agrees (σ := σ) (s.updateTail fun buffer => pure (buffer.replaceLast x))
      (s.updateTail fun buffer => pure (buffer.replaceLast x)) := by
  cases valid with
  | empty root zero tail =>
    simp only [Sequence.updateTail, tail]
    exact agrees_pure _
  | tree root packed total tail =>
    simp only [Sequence.updateTail_eq root packed tail, pure_bind]
    exact agrees_pure _

/-- A call that is not refused and that fits makes all its checks, and passes. -/
theorem agrees_checkedPerform (valid : s.Valid) {edit : Edit α} (fits : edit.Fits s)
    (accepted : edit.violation? s = none) :
    Checked.Agrees (σ := σ) (edit.checkedPerform s) (edit.perform s) := by
  obtain ⟨small, compares⟩ := fits
  cases edit <;> dsimp only [extent, Compares] at small compares
  case push x => exact (Sequence.agrees_checkedPush valid small x).map fun _ => rfl
  case extend xs => exact (Sequence.agrees_checkedExtend valid small).map fun _ => rfl
  case pop => exact (Sequence.agrees_checkedPop valid).map fun _ => rfl
  case removeLast => exact (Sequence.agrees_checkedPop valid).map fun _ => rfl
  case insert index x =>
    have inside : index ≤ s.length := by
      simpa [violation?] using accepted
    exact (Sequence.agrees_checkedInsert valid inside small x).map fun _ => rfl
  case removeAt index =>
    have inside : index < s.length := by
      simpa [violation?] using accepted
    exact (Sequence.agrees_checkedRemoveAt valid small inside).map fun _ => rfl
  case set index x =>
    exact (agrees_check (checkedStoring_eq valid small index x)).after (agrees_pure _)
  case replace index x =>
    exact (agrees_check (checkedStoring_eq valid small index x)).after (agrees_pure _)
  case replaceLast x => exact (agrees_replaceLast valid x).map fun _ => rfl
  case assign index x =>
    exact (agrees_check (valid.checkedModify_eq small index _)).after (agrees_pure _)
  case replaceFlat index x =>
    simp only [checkedPerform, perform]
    split
    · exact (agrees_check (checkedStoring_eq valid small index x)).after (agrees_pure _)
    · exact agrees_pure _
  case exchange first second =>
    have inside : first < s.length ∧ second < s.length := by
      simpa [violation?] using accepted
    exact (agrees_check (valid.checkedExchange_eq small inside.1 inside.2)).after (agrees_pure _)
  case clear => exact (agrees_lift _).map fun _ => rfl
  case dispose => exact (agrees_lift _).map fun _ => rfl
  case reverse => exact (agrees_check (valid.checkedReverse_eq small)).after (agrees_pure _)
  case sort order => exact (valid.agrees_checkedSort small order).map fun _ => rfl
  case sortUnstable order =>
    exact (valid.agrees_checkedSortUnstable (by omega) order).map fun _ => rfl
  case ensure length x =>
    exact (Sequence.agrees_checkedEnsure valid (by omega) x).map fun _ => rfl
  case resize length x =>
    exact (Sequence.agrees_checkedResize valid (by omega) x).map fun _ => rfl
  case truncate length => exact (Sequence.agrees_checkedTruncate valid length).map fun _ => rfl
  case placeAt index x =>
    exact (valid.agrees_checkedPlaceAt (by omega) (by omega) x).map fun _ => rfl
  case copyFrom source start index count =>
    have spans : s.checkCopyFrom source start index count = .ok () := by
      simp only [violation?] at accepted
      split at accepted
      · assumption
      · cases accepted
    obtain ⟨fits, inside⟩ := Sequence.spans_of_checkCopyFrom spans
    have copied := valid.checkedCopyFrom_eq (by omega) (by omega) fits inside
    exact (agrees_check copied).after (agrees_pure _)
  case remove x => exact (valid.agrees_checkedRemove small x).map fun _ => rfl
  case removeAll x => exact (valid.agrees_checkedRemoveAll small x).map fun _ => rfl
  case removeIf test => exact (valid.agrees_checkedRemoveIf small test.ask #[]).map fun _ => rfl
  case retain test => exact (valid.agrees_checkedRetain small test.ask #[]).map fun _ => rfl

theorem agrees_checkedApply (valid : s.Valid) {edit : Edit α} (fits : edit.Fits s) :
    Checked.Agrees (σ := σ) (edit.checkedApply s) (edit.apply s) := by
  unfold checkedApply apply
  cases refused : edit.refusal? s with
  | some failure => exact agrees_pure _
  | none => exact (agrees_checkedPerform valid fits (violation?_eq_none refused)).map fun _ => rfl

end Segmented.Edit
