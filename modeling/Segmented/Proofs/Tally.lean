import Segmented.Proofs.Detection
import Segmented.Proofs.Peers

/-! The version as a tally of the calls on a live sequence. Every call has its steps in a table, a
call that is refused or changes nothing has none, and a cursor goes on exactly as long as the steps
since it was made add up to full rounds of the version. -/

namespace Segmented

variable {α : Type}

namespace Edit

variable [BEq α] [Inhabited α]

/-- By how many steps each call moves the version of a live sequence that holds the elements `xs`,
under a flat root or not. -/
def tally (flat : Bool) (xs : List α) (edit : Edit α) : Nat :=
  match edit with
  | push _ | reverse | sort _ | sortUnstable _ => 1
  | extend ys => ys.length
  | pop | removeLast | clear => if xs.isEmpty then 0 else 1
  | insert index _ => if index ≤ xs.length then 1 else 0
  | removeAt index => if index < xs.length then 1 else 0
  | remove x => if xs.any (· == x) then 1 else 0
  | truncate length => if length < xs.length then 1 else 0
  | ensure length _ => if xs.length < length then 1 else 0
  | placeAt index _ => if xs.length < Sequence.countTo index then 1 else 0
  | resize length _ => if length = xs.length then 0 else 1
  | removeAll _ | removeIf _ | retain _ =>
    let removed := xs.length - (edit.onList xs).2.length
    if flat then min removed 1 else removed
  | set .. | replace .. | replaceLast _ | assign .. | replaceFlat .. | exchange .. | copyFrom ..
  | dispose => 0

omit [BEq α] [Inhabited α] in
theorem ite_eq_lengthStep {xs ys : List α} {changes : Prop} [Decidable changes]
    (agrees : changes ↔ ys.length ≠ xs.length) :
    (if changes then 1 else 0) = Sequence.lengthStep xs ys := by
  by_cases same : ys.length = xs.length <;> simp [Sequence.lengthStep, agrees, same]

omit [BEq α] [Inhabited α] in
theorem ite_eq_lengthStep_dropLast (xs : List α) :
    (if xs.isEmpty then 0 else 1) = Sequence.lengthStep xs xs.dropLast := by
  rcases xs with _ | ⟨x, rest⟩ <;> simp [Sequence.lengthStep]

/-- The table says call by call what the lists before and after a call say. -/
theorem tally_eq_steps (flat : Bool) (xs : List α) (edit : Edit α) :
    edit.tally flat xs = edit.steps flat xs := by
  cases edit with
  | pop => exact ite_eq_lengthStep_dropLast xs
  | removeLast =>
    rcases List.eq_nil_or_concat xs with rfl | ⟨front, last, rfl⟩
    · rfl
    · simp [tally, steps, onList, Sequence.lengthStep]
  | clear => rcases xs with _ | ⟨x, rest⟩ <;> simp [tally, steps, onList, Sequence.lengthStep]
  | insert index x =>
    apply ite_eq_lengthStep
    by_cases inside : index ≤ xs.length <;> simp [onList, inside, List.length_insertIdx]
  | removeAt index =>
    apply ite_eq_lengthStep
    by_cases inside : index < xs.length
    · have shorter : xs.length - 1 ≠ xs.length := by omega
      simp [onList, inside, List.length_eraseIdx, shorter]
    · simp [onList, inside]
  | remove x =>
    apply ite_eq_lengthStep
    rw [onList, List.erase_eq_eraseP', List.length_eraseP]
    cases found : xs.any (· == x) with
    | false => simp
    | true =>
      have some : 0 < xs.length := by
        obtain ⟨y, member, -⟩ := List.any_eq_true.mp found
        exact List.length_pos_of_mem member
      have shorter : xs.length - 1 ≠ xs.length := by omega
      simp [shorter]
  | truncate length =>
    apply ite_eq_lengthStep
    simp only [onList, List.length_take]
    omega
  | ensure length x =>
    apply ite_eq_lengthStep
    simp only [onList, List.length_append, List.length_replicate]
    omega
  | placeAt index x =>
    apply ite_eq_lengthStep
    simp only [onList, List.length_set, List.length_append, List.length_replicate]
    omega
  | resize length x =>
    have agrees : (xs.take length ++ List.replicate (length - xs.length) x).length = xs.length ↔
        length = xs.length := by
      simp only [List.length_append, List.length_take, List.length_replicate]
      omega
    simp only [tally, steps, onList, Sequence.lengthStep, agrees]
  | _ => rfl

variable {σ : Type} [Allocator σ α] [LawfulAllocator σ α] {s : Sequence α}

/-- Every call but disposal moves the version of a live sequence by the steps that the table gives
it. -/
theorem version_apply (valid : s.Valid) (live : s.disposed = false) {edit : Edit α}
    (lives : edit ≠ dispose) (depot : Depot σ) (sound : LawfulAllocator.Sound depot.allocator) :
    s.Moved (edit.tally s.isFlat s.toList) ((edit.apply s).run depot).1.2 := by
  rw [tally_eq_steps]
  exact moved_apply valid live lives depot sound

end Edit

namespace Cursor

/-- The number of elements that the next advance yields. -/
def yields (s : Sequence α) (cursor : Cursor) : Nat :=
  match (cursor.advance s).1 with
  | .ok (some _) => 1
  | _ => 0

theorem position_advance (s : Sequence α) (cursor : Cursor) :
    (cursor.advance s).2.position = cursor.position + cursor.yields s := by
  unfold yields
  by_cases same : s.version = cursor.version
  · rw [advance_of_eq same, advance, if_neg (not_not_intro same)]
    cases s.get? cursor.position <;> rfl
  · rw [advance_of_ne same]
    rfl

variable [BEq α] [Inhabited α]

/-- A run over a sequence that starts with the making of a cursor and goes on with calls, of which
none is disposal, and with advances. It comes with the sum of the steps of its calls and with the
number of elements that its advances have yielded. -/
inductive Run (start : Sequence α) : Nat → Nat → Cursor → Sequence α → Prop
  | made : Run start 0 0 start.cursor start
  | edit {σ : Type} [Allocator σ α] [LawfulAllocator σ α] {total yielded : Nat} {cursor : Cursor}
      {s : Sequence α} (edit : Edit α) (lives : edit ≠ .dispose) (depot : Depot σ)
      (sound : LawfulAllocator.Sound depot.allocator) (earlier : Run start total yielded cursor s) :
      Run start (total + edit.tally s.isFlat s.toList) yielded cursor
        ((edit.apply s).run depot).1.2
  | advance {total yielded : Nat} {cursor : Cursor} {s : Sequence α}
      (earlier : Run start total yielded cursor s) :
      Run start total (yielded + cursor.yields s) (cursor.advance s).2 s

/-- What every point of a run keeps: the sequence is live and as many steps past its start as the
calls add up to, and the cursor has the version of the start and has passed what it yielded. -/
structure Keeps (start : Sequence α) (total yielded : Nat) (cursor : Cursor) (s : Sequence α) :
    Prop where
  reachable : s.Reachable
  live : s.disposed = false
  moved : start.Moved total s
  version : cursor.version = start.version
  position : cursor.position = yielded

variable {start s : Sequence α} {total yielded : Nat} {cursor : Cursor}

theorem Keeps.edit {σ : Type} [Allocator σ α] [LawfulAllocator σ α]
    (keeps : Keeps start total yielded cursor s) {edit : Edit α} (lives : edit ≠ .dispose)
    (depot : Depot σ) (sound : LawfulAllocator.Sound depot.allocator) :
    Keeps start (total + edit.tally s.isFlat s.toList) yielded cursor
      ((edit.apply s).run depot).1.2 where
  reachable := .edit edit depot sound keeps.reachable
  live := (edit.disposed_apply keeps.reachable.valid lives depot sound).trans keeps.live
  moved := keeps.moved.trans
    (edit.version_apply keeps.reachable.valid keeps.live lives depot sound)
  version := keeps.version
  position := keeps.position

theorem Keeps.advance (keeps : Keeps start total yielded cursor s) :
    Keeps start total (yielded + cursor.yields s) (cursor.advance s).2 s where
  reachable := keeps.reachable
  live := keeps.live
  moved := keeps.moved
  version := (version_advance s cursor).trans keeps.version
  position := keeps.position ▸ position_advance s cursor

theorem Run.keeps (reachable : start.Reachable) (live : start.disposed = false)
    (run : Run start total yielded cursor s) : Keeps start total yielded cursor s := by
  induction run with
  | made => exact ⟨reachable, live, .refl start, rfl, rfl⟩
  | edit edit lives depot sound _ ih => exact ih.edit lives depot sound
  | advance _ ih => exact ih.advance

/-- After every run from a live sequence that public operations lead to, the version is past its
start by the sum of the steps of the calls, modulo 65536, and the next call moves it by its own
steps; a cursor made at the start is refused exactly if the sum is no multiple of 65536, and else
yields the element at its position, or none at the end. -/
theorem Run.version_and_advance (reachable : start.Reachable) (live : start.disposed = false)
    (run : Run start total yielded cursor s) :
    s.version = start.version + UInt16.ofNat total ∧
    (∀ {σ : Type} [Allocator σ α] [LawfulAllocator σ α] (edit : Edit α), edit ≠ .dispose →
      ∀ depot : Depot σ, LawfulAllocator.Sound depot.allocator →
        ((edit.apply s).run depot).1.2.version =
          s.version + UInt16.ofNat (edit.tally s.isFlat s.toList)) ∧
    cursor.position = yielded ∧
    ((cursor.advance s).1 = .error .modified ↔ ¬ 65536 ∣ total) ∧
    (65536 ∣ total → (cursor.advance s).1 = .ok s.toList[cursor.position]?) := by
  have keeps := run.keeps reachable live
  have valid := keeps.reachable.valid
  -- The cursor still has the version of the start, so all that counts is how far the run has moved.
  have noticed : s.version = cursor.version ↔ 65536 ∣ total := by
    rw [keeps.version]
    exact keeps.moved.version_eq_iff
  refine ⟨keeps.moved, ?calls, keeps.position, ?refused, ?yielded⟩
  case calls =>
    intro σ _ _ edit lives depot sound
    exact edit.version_apply valid keeps.live lives depot sound
  case refused =>
    rw [← noticed]
    constructor
    · intro refused same
      cases refused.symm.trans (advance_of_eq same)
    · intro moved
      rw [advance_of_ne moved]
  case yielded =>
    intro whole
    rw [advance_of_eq (noticed.mpr whole), valid.get?_eq]

/-- One step is noticed, and 65536 of them are not. -/
theorem version_and_advance_of_pushed :
    let s : Sequence Nat := Sequence.onHeap []
    let depot : Depot (Heap Nat) := { allocator := ⟨⟩ }
    let pushed := (((Edit.push 7).apply s).run depot).1.2
    let grown := (((Edit.extend (List.replicate 65536 7)).apply s).run depot).1.2
    (s.cursor.advance pushed).1 = .error .modified ∧
      (s.cursor.advance grown).1 = .ok grown.toList[s.cursor.position]? := by
  intro s depot pushed grown
  have reachable : s.Reachable := Sequence.reachable_onHeap []
  have one := Run.version_and_advance reachable rfl (.edit (.push 7) nofun depot trivial .made)
  have round := Run.version_and_advance reachable rfl
    (.edit (.extend (List.replicate 65536 7)) nofun depot trivial .made)
  have whole : 65536 ∣ 0 + (Edit.extend (List.replicate 65536 7)).tally s.isFlat s.toList := by
    rw [Edit.tally, List.length_replicate]
  exact ⟨one.2.2.2.1.mpr (by decide), round.2.2.2.2 whole⟩

end Cursor

end Segmented
