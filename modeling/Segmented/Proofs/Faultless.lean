import Segmented.Proofs.CheckedCalls
import Segmented.Proofs.CheckedLocate
import Segmented.Proofs.CheckedTraversal
import Segmented.Proofs.WellFormed

/-! A live sequence never stops the program, unless it is indexed or exchanged outside of its
elements. Whatever is asked of it, no number leaves its word, no position leaves its row, and no
error turns up where there must be none. -/

namespace Segmented

variable {σ α : Type}

/-! ### Announced misuses -/

/-- The calls on a live sequence that are misuses: storing at a position that does not exist, and
exchanging two positions of which one does not. -/
inductive Edit.Announces (s : Sequence α) : Edit α → Misuse → Prop
  | assign {index : Nat} (x : α) (outside : s.length ≤ index) :
      Announces s (.assign index x) (.outOfBounds index s.length)
  | exchange {first second : Nat} (outside : ¬(first < s.length ∧ second < s.length)) :
      Announces s (.exchange first second) (.exchange first second s.length)

theorem Edit.refusal?_eq_misuse_iff {s : Sequence α} (live : s.disposed = false) (edit : Edit α)
    (misuse : Misuse) : edit.refusal? s = some (.misuse misuse) ↔ edit.Announces s misuse := by
  have same : edit.refusal? s = edit.violation? s := by simp [refusal?, live]
  rw [same]
  constructor
  · intro refused
    cases edit <;> simp only [violation?] at refused <;> try cases refused
    case assign index x =>
      split at refused <;> cases refused
      exact .assign x ‹_›
    case exchange first second =>
      split at refused <;> cases refused
      exact .exchange ‹_›
    all_goals split at refused <;> cases refused
  · rintro (⟨x, outside⟩ | outside)
    · exact if_pos outside
    · exact if_neg outside

namespace Sequence

/-! ### Direct indexing -/

def checkedIndex (position : Nat) (s : Sequence α) : Except Fault (Except Misuse α) := do
  match ← s.checkedGet? position with
  | some x => return .ok x
  | none => return .error (.outOfBounds position s.length)

variable {s : Sequence α}

theorem checkedIndex_eq (small : s.length < 2 ^ 64) (position : Nat) :
    s.checkedIndex position = .ok (s.index position) := by
  unfold checkedIndex index
  rw [checkedGet?_eq small]
  cases s.get? position <;> rfl

theorem Valid.index_eq_error_iff (valid : s.Valid) (position : Nat) (misuse : Misuse) :
    s.index position = .error misuse ↔
      s.length ≤ position ∧ misuse = .outOfBounds position s.length := by
  unfold index
  rw [valid.get?_eq, valid.length_eq]
  cases here : s.toList[position]? with
  | none =>
    have outside : s.toList.length ≤ position := List.getElem?_eq_none_iff.mp here
    simp only [Except.error.injEq, outside, true_and]
    exact eq_comm
  | some x =>
    obtain ⟨inside, -⟩ := List.getElem?_eq_some_iff.mp here
    simp [Nat.not_le.mpr inside]

/-! ### No fault -/

open Checked (Agrees)
open Inquiry (lift)

/-- Whatever is asked of the sequence, all the checks on the way are passed, and the answer and what
is left are those of the plain operation. -/
structure Faultless (σ : Type) [Allocator σ α] [LawfulAllocator σ α] [BEq α] [Inhabited α]
    (s : Sequence α) : Prop where
  edits {edit : Edit α} (fits : edit.Fits s) :
    Agrees (σ := σ) (edit.checkedApply s) (edit.apply s)
  /-- Nothing is a misuse but what lies outside of the sequence. -/
  misuses (edit : Edit α) (misuse : Misuse) :
    edit.refusal? s = some (.misuse misuse) ↔ edit.Announces s misuse
  copies : Agrees (σ := σ) s.checkedCopy s.copy
  gets (position : Nat) : s.checkedGet? position = .ok (s.get? position)
  indexes (position : Nat) : s.checkedIndex position = .ok (s.index position)
  /-- Direct indexing refuses nothing but a position outside of the sequence. -/
  outside (position : Nat) (misuse : Misuse) : s.index position = .error misuse ↔
    s.length ≤ position ∧ misuse = .outOfBounds position s.length
  finds {S : Type} (test : α → StateM S Bool) (start : Nat) :
    s.checkedFind test start = lift (s.find test start)
  findsIn {S : Type} (test : α → StateM S Bool) (start stop : Nat) :
    s.checkedFindIn test start stop = lift (s.findIn test start stop)
  findsLast {S : Type} (test : α → StateM S Bool) :
    s.checkedFindLast test = lift (s.findLast test)
  findsLastIn {S : Type} (test : α → StateM S Bool) (start stop : Nat) :
    s.checkedFindLastIn test start stop = lift (s.findLastIn test start stop)
  searches (order : α → Ordering) : s.checkedSearch order = .ok (s.search order)
  searchesIn (order : α → Ordering) (start stop : Nat) :
    s.checkedSearchIn order start stop = .ok (s.searchIn order start stop)
  copiesTo {target : Array α} (small : target.size < 2 ^ 64) (start index count : Nat) :
    s.checkedCopyTo start target index count = .ok (s.copyTo start target index count)
  walks {walk : Walk α} (walked : Walk.Of s walk) : walk.checkedNext = .ok walk.next
  descends {walk : StackWalk α} (walked : StackWalk.Of s walk) :
    walk.checkedNext = .ok walk.next ∧ walk.checkedNextBack = .ok walk.nextBack
  /-- Also cursors that were made for another sequence. -/
  advances (cursor : Cursor) : cursor.checkedAdvance s = .ok (cursor.advance s)
  drains (count : Nat) :
    Agrees (σ := σ) (Drain.checkedTake count [] (.ofSequence s)) ((Drain.ofSequence s).take count)
  segments : s.checkedSegmentCount = .ok s.segmentCount

variable [Allocator σ α] [LawfulAllocator σ α] [BEq α] [Inhabited α]

theorem Valid.faultless (valid : s.Valid) (live : s.disposed = false) (small : s.length < 2 ^ 64) :
    s.Faultless σ where
  edits fits := Edit.agrees_checkedApply valid fits
  misuses := Edit.refusal?_eq_misuse_iff live
  copies := agrees_checkedCopy valid small
  gets := checkedGet?_eq small
  indexes := checkedIndex_eq small
  outside := valid.index_eq_error_iff
  finds := valid.checkedFind_eq small
  findsIn := valid.checkedFindIn_eq small
  findsLast := valid.checkedFindLast_eq small
  findsLastIn := valid.checkedFindLastIn_eq small
  searches := valid.checkedSearch_eq small
  searchesIn := valid.checkedSearchIn_eq small
  copiesTo := valid.checkedCopyTo_eq small
  walks walked := (walked.counts valid).checkedNext_eq.1
  descends walked := ⟨walked.checkedNext_eq valid small, walked.checkedNextBack_eq valid small⟩
  advances := Cursor.checkedAdvance_eq small
  drains := (Drain.counts_ofSequence valid).agrees_checkedTake
  segments := valid.checkedSegmentCount_eq small

/-- No operation on a live sequence whose elements a word can count stops the program, other than by
announcing that a position lies outside of the sequence. -/
theorem Reachable.never_faults (reachable : s.Reachable) (live : s.disposed = false)
    (small : s.length < 2 ^ 64) : s.Faultless σ :=
  reachable.valid.faultless live small

/-- Forty-one elements in three segments. -/
def spread : Sequence Nat := onHeap [.extend (List.range 40), .insert 3 7]

/-- An element is inserted in front, which is carried through all segments, and an exchange reaches
beyond the last element. -/
theorem spread_never_faults :
    spread.Reachable ∧ spread.disposed = false ∧ spread.length < 2 ^ 64 ∧
      Agrees (σ := Heap Nat) ((Edit.insert 0 5).checkedApply spread)
        ((Edit.insert 0 5).apply spread) ∧
      (Edit.exchange 40 41).refusal? spread = some (.misuse (.exchange 40 41 41)) := by
  have live : spread.disposed = false := by decide +kernel
  have length : spread.length = 41 := by decide +kernel
  have small : spread.length < 2 ^ 64 := by
    rw [length]
    decide
  have faultless : spread.Faultless (Heap Nat) :=
    Reachable.never_faults (reachable_onHeap _) live small
  refine ⟨reachable_onHeap _, live, small, faultless.edits ⟨?_, trivial⟩, ?_⟩
  · change spread.length + 1 < 2 ^ 64
    rw [length]
    decide
  · rw [faultless.misuses]
    have outside : ¬(40 < spread.length ∧ 41 < spread.length) := by
      rw [length]
      decide
    have announced := Edit.Announces.exchange outside
    rwa [length] at announced

end Sequence

end Segmented
