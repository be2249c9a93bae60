import Segmented.Edit
import Segmented.Proofs.Removal
import Segmented.Proofs.Rewrite

/-! What each call means on a list, and that a call on a valid sequence means the same. -/

namespace Segmented

theorem Sequence.checkCopyFrom_eq {α : Type} (s : Sequence α) (source : Array α)
    (start index count : Nat) :
    s.checkCopyFrom source start index count =
      if source.size < start + count then .error (.span "src_index" start count source.size)
      else if s.length < index + count then .error (.span "dest_index" index count s.length)
      else .ok () := by
  unfold checkCopyFrom checkSpan
  by_cases inside : start + count ≤ source.size
  · rw [if_pos inside, if_neg (Nat.not_lt.mpr inside)]
    by_cases within : index + count ≤ s.length
    · rw [if_pos within, if_neg (Nat.not_lt.mpr within)]
      rfl
    · rw [if_neg within, if_pos (Nat.not_le.mp within)]
      rfl
  · rw [if_neg inside, if_pos (Nat.not_le.mp inside)]
    rfl

theorem Sequence.spans_of_checkCopyFrom {α : Type} {s : Sequence α} {source : Array α}
    {start index count : Nat} (passed : s.checkCopyFrom source start index count = .ok ()) :
    start + count ≤ source.size ∧ index + count ≤ s.length := by
  rw [checkCopyFrom_eq] at passed
  split at passed
  · cases passed
  · rename_i there
    split at passed
    · cases passed
    · rename_i inside
      exact ⟨Nat.not_lt.mp there, Nat.not_lt.mp inside⟩

namespace Edit

variable {σ α : Type}

/-- The call can be made on a list: it does not end a life, it does not ask how the elements lie in
segments, and the order it leaves is determined. -/
def OnLists : Edit α → Prop
  | dispose | replaceFlat .. | sortUnstable .. => False
  | _ => True

/-- What the call answers when it is made on a list, and what it leaves. A place is counted to as
in a sequence. -/
def onList [BEq α] [Inhabited α] (xs : List α) : Edit α → Except Failure (Reply α) × List α
  | push x => (.ok .done, xs ++ [x])
  | extend ys => (.ok .done, xs ++ ys)
  | pop => (.ok (.option xs.getLast?), xs.dropLast)
  | removeLast =>
    match xs.getLast? with
    | some x => (.ok (.element x), xs.dropLast)
    | none => (.error (.error .empty), xs)
  | insert index x =>
    if index ≤ xs.length then (.ok .done, xs.insertIdx index x)
    else (.error (.error (.indexOutOfRange index xs.length)), xs)
  | removeAt index =>
    match xs[index]? with
    | some x => (.ok (.element x), xs.eraseIdx index)
    | none => (.error (.error (.indexOutOfRange index xs.length)), xs)
  | set index x =>
    match xs[index]? with
    | some old => (.ok (.element old), xs.set index x)
    | none => (.error (.error (.indexOutOfRange index xs.length)), xs)
  | replace index x => (.ok (.option xs[index]?), xs.set index x)
  | replaceLast x => (.ok (.option xs.getLast?), xs.set (xs.length - 1) x)
  | assign index x =>
    if index < xs.length then (.ok .done, xs.set index x)
    else (.error (.misuse (.outOfBounds index xs.length)), xs)
  | exchange first second =>
    match xs[first]?, xs[second]? with
    | some x, some y => (.ok .done, (xs.set first y).set second x)
    | _, _ => (.error (.misuse (.exchange first second xs.length)), xs)
  | clear => (.ok .done, [])
  | reverse => (.ok .done, xs.reverse)
  | sort order => (.ok .done, stableSort order xs)
  | ensure length x => (.ok .done, xs ++ List.replicate (length - xs.length) x)
  | resize length x => (.ok .done, xs.take length ++ List.replicate (length - xs.length) x)
  | truncate length => (.ok .done, xs.take length)
  | placeAt index x =>
    (.ok .done,
      (xs ++ List.replicate (Sequence.countTo index - xs.length) default).set index x)
  | copyFrom source start index count =>
    if source.size < start + count then
      (.error (.error (.span "src_index" start count source.size)), xs)
    else if xs.length < index + count then
      (.error (.error (.span "dest_index" index count xs.length)), xs)
    else
      (.ok .done, xs.take index ++ (source.toList.drop start).take count ++ xs.drop (index + count))
  | remove x => (.ok (.flag (xs.any (· == x))), xs.erase x)
  | removeAll x => (.ok (.count (xs.countP (· == x))), xs.filter (· != x))
  | removeIf test =>
    let (kept, asked) := (Sequence.sift test.ask xs).run #[]
    (.ok (.removed (xs.length - kept.length) asked), kept)
  | retain test =>
    let (kept, asked) := (Sequence.sift (fun x => do return !(← test.ask x)) xs).run #[]
    (.ok (.retained asked), kept)
  | dispose | replaceFlat .. | sortUnstable .. => (.ok .done, xs)

variable {s : Sequence α} [BEq α] [Inhabited α]

open Sequence (Valid Follows)

/-- A call is refused on a valid sequence for what it violates on the list of the elements. -/
theorem onList_of_violation (valid : s.Valid) {edit : Edit α} {failure : Failure}
    (violation : edit.violation? s = some failure) :
    edit.onList s.toList = (.error failure, s.toList) := by
  have length := valid.length_eq
  cases edit <;> simp only [violation?, length] at violation <;> try cases violation
  case removeLast =>
    split at violation <;> cases violation
    rename_i empty
    simp [onList, List.eq_nil_of_length_eq_zero empty]
  case insert index x =>
    split at violation <;> cases violation
    rename_i beyond
    simp [onList, Nat.not_le.mpr beyond]
  case removeAt index =>
    split at violation <;> cases violation
    rename_i beyond
    simp [onList, beyond]
  case set index x =>
    split at violation <;> cases violation
    rename_i beyond
    simp [onList, beyond]
  case assign index x =>
    split at violation <;> cases violation
    rename_i beyond
    simp [onList, Nat.not_lt.mpr beyond]
  case exchange first second =>
    split at violation <;> cases violation
    rename_i outside
    rcases Nat.lt_or_ge first s.toList.length with inside | beyond
    · have beyond : s.toList.length ≤ second := Nat.not_lt.mp fun other => outside ⟨inside, other⟩
      simp [onList, beyond]
    · simp [onList, beyond]
  case copyFrom source start index count =>
    rw [Sequence.checkCopyFrom_eq, length] at violation
    rw [onList]
    split at violation
    · cases violation
    · rename_i failed
      cases violation
      split at failed
      · rename_i beyond
        cases failed
        rw [if_pos beyond]
      · rename_i inside
        rw [if_neg inside]
        split at failed <;> cases failed
        rename_i beyond
        rw [if_pos beyond]

variable [Allocator σ α] [LawfulAllocator σ α]

open Depot (Ensures)

omit [BEq α] [Inhabited α] in
/-- The step leaves the listed elements and answers nothing. -/
theorem ensures_done {step : Depot.Step σ (Sequence α)} {xs : List α}
    (done : Ensures s.options.segmentCapacity s.storage step Sequence.storage (s.Follows xs)) :
    Ensures s.options.segmentCapacity s.storage (do return (Reply.done, ← step))
      (fun answer => answer.2.storage)
      (fun answer => (Except.ok answer.1 : Except Failure (Reply α)) = .ok .done ∧
        s.Follows xs answer.2) :=
  done.map fun _ follows => ⟨rfl, rfl, follows⟩

/-- A call that nothing forbids answers and leaves what it answers and leaves on a list. -/
theorem ensures_perform (valid : s.Valid) {edit : Edit α} (listed : edit.OnLists)
    (allowed : edit.violation? s = none) :
    Ensures (σ := σ) s.options.segmentCapacity s.storage (edit.perform s)
      (fun answer => answer.2.storage)
      (fun answer => .ok answer.1 = (edit.onList s.toList).1 ∧
        s.Follows (edit.onList s.toList).2 answer.2) := by
  have length := valid.length_eq
  cases edit with
  | push x => exact ensures_done (Sequence.ensures_push valid x)
  | extend ys => exact ensures_done (Sequence.ensures_extend valid ys)
  | pop =>
    refine (Sequence.ensures_pop valid).map fun answer done => ⟨rfl, ?_, done.2⟩
    rw [done.1]
    rfl
  | removeLast =>
    have some : s.toList ≠ [] := by
      rintro none
      simp [violation?, length, none] at allowed
    have last := List.getLast?_eq_some_getLast some
    rw [onList, last]
    refine (Sequence.ensures_pop valid).map fun answer done => ⟨rfl, ?_, done.2⟩
    rw [done.1, last]
    rfl
  | insert index x =>
    have inside : index ≤ s.length := by simpa [violation?] using allowed
    rw [onList, if_pos (length ▸ inside)]
    exact ensures_done (Sequence.ensures_insert valid inside x)
  | removeAt index =>
    have inside : index < s.length := by simpa [violation?] using allowed
    have here := List.getElem?_eq_getElem (length ▸ inside)
    rw [onList, here]
    refine (Sequence.ensures_removeAt valid inside).map fun answer done => ⟨rfl, ?_, done.2⟩
    rw [done.1, here]
    rfl
  | set index x =>
    have inside : index < s.length := by simpa [violation?] using allowed
    have here := List.getElem?_eq_getElem (length ▸ inside)
    obtain ⟨stored, follows⟩ := Sequence.follows_set valid index x
    rw [onList, here]
    refine Ensures.pure stored ⟨?_, follows⟩
    rw [valid.get?_eq, here]
    rfl
  | replace index x =>
    obtain ⟨stored, follows⟩ := Sequence.follows_set valid index x
    refine Ensures.pure stored ⟨?_, follows⟩
    rw [valid.get?_eq]
    rfl
  | replaceLast x =>
    refine (Sequence.ensures_replaceLast valid x).map fun s' follows => ⟨rfl, ?_, follows⟩
    rw [valid.last?_eq]
    rfl
  | assign index x =>
    have inside : index < s.length := by simpa [violation?] using allowed
    obtain ⟨stored, follows⟩ := Sequence.follows_set valid index x
    rw [onList, if_pos (length ▸ inside)]
    exact Ensures.pure stored ⟨rfl, follows⟩
  | exchange first second =>
    have inside : first < s.length ∧ second < s.length := by simpa [violation?] using allowed
    rw [length] at inside
    have here := List.getElem?_eq_getElem inside.1
    have there := List.getElem?_eq_getElem inside.2
    obtain ⟨stored, follows⟩ := Sequence.follows_exchange valid here there
    rw [onList, here, there]
    exact Ensures.pure stored ⟨rfl, follows⟩
  | clear => exact ensures_done (Sequence.ensures_clear valid)
  | reverse =>
    obtain ⟨stored, follows⟩ := Sequence.follows_reverse valid
    exact Ensures.pure stored ⟨rfl, follows⟩
  | sort order => exact ensures_done (Sequence.ensures_sort valid order)
  | ensure count x =>
    rw [onList, ← length]
    exact ensures_done ((Sequence.ensures_ensure valid count x).weaken fun _ done => ⟨rfl, done.1⟩)
  | resize count x =>
    rw [onList, ← length]
    exact ensures_done (Sequence.ensures_resize valid count x)
  | truncate count => exact ensures_done (Sequence.ensures_truncate valid count)
  | placeAt index x =>
    rw [onList, ← length]
    exact ensures_done (Sequence.ensures_placeAt valid index x)
  | copyFrom source start index count =>
    have passed : s.checkCopyFrom source start index count = .ok () := by
      rw [violation?] at allowed
      split at allowed
      · assumption
      · cases allowed
    obtain ⟨there, inside⟩ := Sequence.spans_of_checkCopyFrom passed
    obtain ⟨stored, follows⟩ := Sequence.follows_copyFrom valid there inside
    rw [onList, if_neg (Nat.not_lt.mpr there), if_neg (Nat.not_lt.mpr (length ▸ inside))]
    exact Ensures.pure stored ⟨rfl, follows⟩
  | remove x =>
    refine (Sequence.ensures_remove valid x).map fun answer done => ⟨rfl, ?_, done.2⟩
    rw [done.1]
    rfl
  | removeAll x =>
    refine (Sequence.ensures_removeAll valid x).map fun answer done => ⟨rfl, ?_, done.2⟩
    rw [done.1]
    rfl
  | removeIf test =>
    refine (Sequence.ensures_removeIf valid test.ask #[]).map fun answer removed => ⟨rfl, ?_, ?_⟩
    · have count : answer.1 = s.toList.length - _ := Nat.eq_sub_of_add_eq
        (removed.count.trans (Nat.zero_add _))
      rw [count, removed.state]
      rfl
    · exact removed.follows
  | retain test =>
    refine (Sequence.ensures_removeIf valid (fun x => do return !(← test.ask x)) #[]).map
      fun answer removed => ⟨rfl, ?_, ?_⟩
    · rw [removed.state]
      rfl
    · exact removed.follows
  | dispose => exact listed.elim
  | replaceFlat index x => exact listed.elim
  | sortUnstable order => exact listed.elim

theorem ensures_apply_onList (valid : s.Valid) (live : s.disposed = false) {edit : Edit α}
    (listed : edit.OnLists) :
    Ensures (σ := σ) s.options.segmentCapacity s.storage (edit.apply s)
      (fun answer => answer.2.storage)
      (fun answer => answer.1 = (edit.onList s.toList).1 ∧
        s.Follows (edit.onList s.toList).2 answer.2) := by
  have refusal : edit.refusal? s = edit.violation? s := by simp [refusal?, live]
  unfold apply
  rw [refusal]
  cases violation : edit.violation? s with
  | some failure =>
    rw [onList_of_violation valid violation]
    exact Ensures.pure rfl ⟨rfl, .refl valid⟩
  | none => exact (ensures_perform valid listed violation).map fun _ done => ⟨rfl, done⟩

/-- Every call leaves a valid sequence, whatever the order or the test it is given. -/
theorem ensures_apply (valid : s.Valid) (edit : Edit α) :
    Ensures (σ := σ) s.options.segmentCapacity s.storage (edit.apply s)
      (fun answer => answer.2.storage)
      (fun answer => answer.2.Valid ∧ answer.2.options = s.options) := by
  unfold apply
  cases refused : edit.refusal? s with
  | some failure => exact Ensures.pure rfl ⟨valid, rfl⟩
  | none =>
    have allowed : edit.violation? s = none := by
      unfold refusal? at refused
      split at refused
      · cases refused
      · exact refused
    suffices performed : Ensures (σ := σ) s.options.segmentCapacity s.storage (edit.perform s)
        (fun answer => answer.2.storage)
        (fun answer => answer.2.Valid ∧ answer.2.options = s.options) from
      performed.map fun _ done => ⟨rfl, done⟩
    by_cases listed : edit.OnLists
    · exact (ensures_perform valid listed allowed).weaken fun _ done =>
        ⟨rfl, done.2.valid, done.2.options⟩
    · cases edit with
      | dispose =>
        exact (Sequence.ensures_dispose valid).map fun _ follows =>
          ⟨rfl, follows.valid, follows.options⟩
      | replaceFlat index x =>
        simp only [perform]
        split
        · obtain ⟨stored, follows⟩ := Sequence.follows_set valid index x
          exact Ensures.pure stored ⟨follows.valid, follows.options⟩
        · exact Ensures.pure rfl ⟨valid, rfl⟩
      | sortUnstable order =>
        refine (Sequence.ensures_sortUnstable valid order).map fun s' done => ⟨rfl, ?_⟩
        obtain ⟨_, _, follows⟩ := done
        exact ⟨follows.valid, follows.options⟩
      | _ => exact absurd trivial listed

end Edit

end Segmented
