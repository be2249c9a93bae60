import Segmented.Proofs.Calls

/-! By how many steps each call moves the version of a sequence. -/

namespace Segmented

variable {σ α : Type}

/-! ### Steps whatever the depot -/

/-- Whatever the depot holds, the answer of the step satisfies `post`. -/
def Depot.Returns {ρ : Type} (step : Depot.Step σ ρ) (post : ρ → Prop) : Prop :=
  ∀ depot : Depot σ, post (step.run depot).1

namespace Depot.Returns

variable {ρ τ : Type} {step : Depot.Step σ ρ} {between : ρ → Prop} {post : τ → Prop}

theorem pure {x : τ} (holds : post x) : Returns (pure x : Depot.Step σ τ) post :=
  fun _ => holds

theorem bind {next : ρ → Depot.Step σ τ} (first : Returns step between)
    (second : ∀ x, between x → Returns (next x) post) : Returns (step >>= next) post :=
  fun depot => second _ (first depot) _

/-- What the first step answers does not matter. -/
theorem after {next : ρ → Depot.Step σ τ} (second : ∀ x, Returns (next x) post) :
    Returns (step >>= next) post :=
  fun _ => second _ _

/-- A step that ends with an answer read off another answer. -/
theorem map {answer : ρ → τ} (first : Returns step between)
    (last : ∀ x, between x → post (answer x)) :
    Returns (do let x ← step; return answer x) post :=
  first.bind fun x holds => pure (last x holds)

end Depot.Returns

open Depot (Returns Ensures)

namespace Sequence

/-- The second sequence is `count` steps of the version past the first, modulo 65536. -/
def Moved (s : Sequence α) (count : Nat) (s' : Sequence α) : Prop :=
  s'.version = s.version + UInt16.ofNat count

variable {s s' s'' : Sequence α} {count more : Nat}

theorem Moved.refl (s : Sequence α) : s.Moved 0 s := (UInt16.add_zero _).symm

theorem Moved.trans (first : s.Moved count s') (second : s'.Moved more s'') :
    s.Moved (count + more) s'' := by
  rw [Moved, UInt16.ofNat_add, ← UInt16.add_assoc, ← first]
  exact second

theorem Moved.step (moved : s.Moved count s') (next : s''.version = s'.version + 1) :
    s.Moved (count + 1) s'' := moved.trans next

/-! ### Changes in place -/

theorem moved_modify (index : Nat) (change : α → α) (s : Sequence α) :
    s.Moved 0 (s.modify index change) := by
  obtain ⟨root⟩ := s
  cases root <;> exact .refl _

theorem moved_exchange (first second : Nat) (s : Sequence α) :
    s.Moved 0 (s.exchange first second) := by
  unfold exchange
  split
  · exact (moved_modify ..).trans (moved_modify ..)
  · exact .refl s

theorem moved_overwrite (index : Nat) (xs : List α) (s : Sequence α) :
    s.Moved 0 (s.overwrite index xs) := by
  induction xs generalizing s index with
  | nil => exact .refl s
  | cons x rest ih => exact (moved_modify ..).trans (ih ..)

theorem moved_refill (contents : Array α) (s : Sequence α) : s.Moved 0 (s.refill contents) := by
  obtain ⟨root⟩ := s
  cases root <;> exact .refl _

theorem moved_reverse (s : Sequence α) : s.Moved 1 s.reverse := (moved_refill ..).step rfl

theorem returns_updateTail (change : Buffer α → Depot.Step σ (Buffer α)) (s : Sequence α) :
    Returns (s.updateTail change) (s.Moved 0) := by
  obtain ⟨root, length, tail⟩ := s
  cases tail with
  | none => exact Returns.pure (.refl _)
  | some number =>
    cases root with
    | none => exact Returns.pure (.refl _)
    | some root => exact Returns.after fun _ => Returns.pure (.refl _)

variable [Allocator σ α]

/-! ### Growth -/

theorem returns_pushDeep (x : α) (s : Sequence α) :
    Returns (σ := σ) (s.pushDeep x) (s.Moved 1) := by
  obtain ⟨root⟩ := s
  cases root <;> exact Returns.after fun _ => Returns.pure rfl

theorem returns_push (x : α) (s : Sequence α) : Returns (σ := σ) (s.push x) (s.Moved 1) := by
  unfold push
  dsimp only
  split
  · exact Returns.map (returns_updateTail _ s) fun _ kept => kept.step rfl
  · exact returns_pushDeep x s

theorem returns_extend (xs : List α) (s : Sequence α) :
    Returns (σ := σ) (s.extend xs) (s.Moved xs.length) := by
  unfold extend
  induction xs generalizing s with
  | nil => exact Returns.pure (.refl s)
  | cons x rest ih =>
    rw [List.foldlM_cons, List.length_cons, Nat.add_comm]
    exact Returns.bind (returns_push x s) fun s' pushed depot => pushed.trans (ih s' depot)

theorem returns_ensure (length : Nat) (x : α) (s : Sequence α) :
    Returns (σ := σ) (s.ensure length x) (s.Moved (if length ≤ s.length then 0 else 1)) := by
  unfold ensure
  split
  · exact Returns.pure (.refl s)
  · obtain ⟨root⟩ := s
    cases root <;> exact Returns.after fun _ => Returns.after fun _ => Returns.pure rfl

theorem returns_placeAt [Inhabited α] (index : Nat) (x : α) (s : Sequence α) :
    Returns (σ := σ) (s.placeAt index x) (s.Moved (if countTo index ≤ s.length then 0 else 1)) := by
  rw [placeAt_eq]
  refine Returns.map (returns_ensure (countTo index) default s) fun s' moved => ?_
  have stored := moved.trans (moved_modify index (fun _ => x) s')
  rwa [Nat.add_zero] at stored

/-! ### Emptying and removal -/

theorem returns_clear (s : Sequence α) :
    Returns (σ := σ) s.clear (s.Moved (if s.length = 0 ∧ s.root = none then 0 else 1)) := by
  unfold clear
  by_cases empty : s.length = 0 ∧ s.root = none
  · simp only [empty.1, empty.2, decide_true, Option.isNone_none, Bool.and_self, if_true, and_self]
    exact Returns.pure (.refl s)
  · have full : (decide (s.length = 0) && s.root.isNone) = false := by
      simpa [Option.isSome_iff_ne_none] using empty
    simp only [full, Bool.false_eq_true, if_false, if_neg empty]
    exact Returns.after fun _ => Returns.pure rfl

theorem returns_settle (moved : s.Moved count s') :
    Returns (σ := σ) s'.settle (s.Moved count) := by
  unfold settle
  split
  · exact Returns.after fun _ => Returns.after fun _ => Returns.pure moved
  · exact Returns.pure moved

theorem returns_popDeep (s : Sequence α) :
    Returns (σ := σ) s.popDeep fun answer => s.Moved answer.1.toList.length answer.2 := by
  obtain ⟨root, length, tail, version⟩ := s
  cases root with
  | none => exact Returns.pure (.refl _)
  | some root =>
    apply Returns.after
    intro answer
    obtain ⟨removed, tree⟩ := answer
    cases removed with
    | none => exact Returns.pure (.refl _)
    | some x => exact Returns.map (returns_settle rfl) fun _ kept => kept

theorem returns_pop (s : Sequence α) :
    Returns (σ := σ) s.pop fun answer => s.Moved answer.1.toList.length answer.2 := by
  unfold pop
  split
  · exact Returns.pure (.refl s)
  split
  · rename_i spare
    have some : s.last?.toList.length = 1 := by
      unfold last?
      cases here : s.tailSegment? with
      | none => simp [here] at spare
      | some segment =>
        have another : 1 < segment.items.size := by
          rw [here] at spare
          exact of_decide_eq_true spare
        simp [Array.back?, Nat.sub_lt_of_pos_le Nat.one_pos (Nat.le_of_lt another)]
    refine Returns.map (returns_updateTail _ s) fun _ kept => ?_
    rw [some]
    exact kept.step rfl
  · exact returns_popDeep s

theorem returns_insertDeep (index : Nat) (x : α) (root : Root α) (s : Sequence α) :
    Returns (σ := σ) (s.insertDeep index x root) (s.Moved 1) := by
  apply Returns.after
  intro answer
  obtain ⟨tree, carry⟩ := answer
  cases carry <;> exact Returns.after fun _ => Returns.pure rfl

/-- An insertion is one step, unless the sequence has no tree to insert into. -/
theorem returns_insert (index : Nat) (x : α) {s : Sequence α}
    (possible : index = s.length ∨ s.root ≠ none) :
    Returns (σ := σ) (s.insert index x) (s.Moved 1) := by
  unfold insert
  split
  · exact returns_push x s
  · rename_i inside
    cases here : s.root with
    | none => exact absurd here (possible.resolve_left inside)
    | some root =>
      obtain ⟨level, tree⟩ := root
      have deep : Returns (σ := σ) ({ s with root := none }.insertDeep index x { level, tree })
          (s.Moved 1) :=
        returns_insertDeep index x _ _
      simp only [detach, here]
      cases level with
      | succ level => exact deep
      | zero =>
        change Buffer α at tree
        cases room : tree.isFull s.options with
        | true => simpa only [room, if_true] using deep
        | false =>
          simp only [room, Bool.false_eq_true, if_false]
          exact Returns.after fun _ => Returns.pure rfl

theorem returns_removeAt (index : Nat) {s : Sequence α} (rooted : s.root ≠ none) :
    Returns (σ := σ) (s.removeAt index) fun answer => s.Moved 1 answer.2 := by
  obtain ⟨root, length, tail, version⟩ := s
  cases root with
  | none => exact absurd rfl rooted
  | some root => exact Returns.after fun _ => Returns.map (returns_settle rfl) fun _ kept => kept

theorem returns_truncate (length : Nat) {s : Sequence α} (rooted : s.length = 0 ∨ s.root ≠ none) :
    Returns (σ := σ) (s.truncate length) (s.Moved (if s.length ≤ length then 0 else 1)) := by
  unfold truncate
  split
  · exact Returns.pure (.refl s)
  · rename_i longer
    have some : s.length ≠ 0 := by omega
    split
    · have cleared := returns_clear (σ := σ) s
      rwa [if_neg fun empty => some empty.1] at cleared
    · have rooted := rooted.resolve_left some
      obtain ⟨root, _, tail, version⟩ := s
      cases root with
      | none => exact absurd rfl rooted
      | some root =>
        obtain ⟨level, tree⟩ := root
        cases level <;>
          exact Returns.after fun _ => returns_settle rfl

/-! ### Order -/

theorem returns_sort (order : α → α → Ordering) (s : Sequence α) :
    Returns (σ := σ) (s.sort order) (s.Moved 1) := by
  unfold sort
  split
  · exact Returns.pure ((moved_refill _ s).step rfl)
  · -- The rebuilt sequence gets the version back that it had before it was taken apart.
    have rebuilt : Returns (σ := σ) (s.sortRebuilt order) (s.Moved 0) :=
      Returns.after fun _ => Returns.after fun _ => Returns.after fun _ => Returns.pure (.refl s)
    exact Returns.map rebuilt fun _ kept => kept.step rfl

omit [Allocator σ α] in
theorem returns_sortUnstable (order : α → α → Ordering) (s : Sequence α) :
    Returns (σ := σ) (s.sortUnstable order) (s.Moved 1) := by
  unfold sortUnstable
  split
  · exact Returns.pure ((moved_refill _ s).step rfl)
  · split
    · exact Returns.pure ((moved_refill _ s).step rfl)
    · exact Returns.after fun _ => Returns.pure ((Moved.refl s).step rfl)

/-! ### Removal by value and by test -/

variable {S : Type}

theorem root_ne_none_of_find {test : α → StateM S Bool} {start index : Nat} {state state' : S}
    (found : (s.find test start).run state = (some index, state')) : s.root ≠ none := by
  intro none
  unfold find findWithin at found
  split at found
  · rw [none] at found
    cases congrArg Prod.fst found
  · cases congrArg Prod.fst found

theorem returns_remove [BEq α] (x : α) (s : Sequence α) :
    Returns (σ := σ) (s.remove x) fun answer => s.Moved answer.1.toNat answer.2 := by
  unfold remove
  cases found : s.indexOf? x with
  | none => exact Returns.pure (.refl s)
  | some index =>
    have rooted := root_ne_none_of_find (Prod.ext found rfl)
    exact Returns.map (returns_removeAt index rooted) fun _ moved => moved

/-- Every element that goes is a step of its own. -/
theorem returns_removeEach (test : α → StateM S Bool) (bound start earlier : Nat) (state : S)
    (s : Sequence α) :
    Returns (σ := σ) (removeEach test bound start earlier state s) fun answer =>
      ∃ gone, answer.1 = earlier + gone ∧ s.Moved gone answer.2.2 := by
  induction bound generalizing s start earlier state with
  | zero => exact Returns.pure ⟨0, rfl, .refl s⟩
  | succ bound ih =>
    rw [removeEach]
    cases found : (s.find test start).run state with
    | mk index state' =>
      cases index with
      | none => exact Returns.pure ⟨0, rfl, .refl s⟩
      | some index =>
        refine Returns.bind (returns_removeAt index (root_ne_none_of_find found)) ?_
        intro answer moved depot
        obtain ⟨gone, count, moved'⟩ := ih index (earlier + 1) state' answer.2 depot
        exact ⟨1 + gone, count.trans (Nat.add_assoc ..), moved.trans moved'⟩

/-- The steps of a removal in bulk: one for a sweep that takes anything out of a single segment,
and otherwise one for every element that goes. -/
def bulkSteps (flat : Bool) (removed : Nat) : Nat := if flat then min removed 1 else removed

theorem isFlat_of_segment {segment : Buffer α}
    (root : s.root = some { level := 0, tree := segment }) : s.isFlat = true := by
  simp [isFlat, flat?, root]

theorem isFlat_of_deep (deep : ∀ segment, s.root ≠ some { level := 0, tree := segment })
    (rooted : s.root ≠ none) : s.isFlat = false := by
  unfold isFlat flat?
  split
  · rename_i none
    exact absurd none rooted
  · rename_i segment root
    exact absurd root (deep segment)
  · rfl

theorem returns_removeIf (test : α → StateM S Bool) (state : S) (s : Sequence α) :
    Returns (σ := σ) (s.removeIf test state) fun answer =>
      s.Moved (bulkSteps s.isFlat answer.1) answer.2.2 := by
  by_cases segment : ∃ segment, s.root = some { level := 0, tree := segment }
  · obtain ⟨segment, root⟩ := segment
    rw [removeIf_of_segment root, isFlat_of_segment root]
    dsimp only
    split
    · exact Returns.pure (.refl s)
    · rename_i some
      apply Returns.after
      intro swept
      refine Returns.map (returns_settle ((Moved.refl s).step rfl)) fun _ moved => ?_
      rwa [bulkSteps, if_pos rfl, Nat.min_eq_right (Nat.one_le_iff_ne_zero.mpr some)]
  · have deep : ∀ segment, s.root ≠ some { level := 0, tree := segment } :=
      not_exists.mp segment
    rw [removeIf_of_deep deep]
    by_cases none : s.root = none
    · have nothing (start : Nat) : s.find test start = pure Option.none := by
        unfold find findWithin
        rw [none]
        split <;> rfl
      have kept : s.Moved (bulkSteps s.isFlat 0) s := by
        cases s.isFlat <;> exact .refl s
      cases s.length with
      | zero => exact Returns.pure kept
      | succ bound =>
        rw [removeEach, nothing]
        exact Returns.pure kept
    · intro depot
      obtain ⟨gone, count, moved⟩ := returns_removeEach test s.length 0 0 state s depot
      rw [isFlat_of_deep deep none, count, Nat.zero_add]
      exact moved

theorem returns_dispose (s : Sequence α) :
    Returns (σ := σ) s.dispose
      fun s' => s'.version = (if s.disposed then s.version else 65535) := by
  unfold dispose
  split
  · exact Returns.pure rfl
  · exact Returns.after fun _ => Returns.after fun _ => Returns.pure rfl

/-! ### Steps by the lengths before and after -/

variable [LawfulAllocator σ α]

/-- The step of a call that is one step if it changes the length. -/
def lengthStep (before after : List α) : Nat := if after.length = before.length then 0 else 1

omit [Allocator σ α] [LawfulAllocator σ α] in
theorem Moved.lengthStep {same : Prop} [Decidable same] {xs ys : List α}
    (moved : s.Moved (if same then 0 else 1) s') (agrees : same ↔ ys.length = xs.length) :
    s.Moved (lengthStep xs ys) s' := by
  simpa only [Sequence.lengthStep, agrees] using moved

theorem Valid.moved_pop (valid : s.Valid) (depot : Depot σ)
    (sound : LawfulAllocator.Sound depot.allocator) :
    s.Moved (lengthStep s.toList s.toList.dropLast) (s.pop.run depot).1.2 := by
  have moved : s.Moved _ (s.pop.run depot).1.2 := returns_pop s depot
  rw [(ensures_pop valid depot sound).2.1] at moved
  rcases List.eq_nil_or_concat s.toList with none | ⟨front, last, some⟩
  · rw [none] at moved ⊢
    exact moved
  · rw [some] at moved ⊢
    simpa [Sequence.lengthStep] using moved

omit [Allocator σ α] [LawfulAllocator σ α] in
theorem Valid.root_ne_none (valid : s.Valid) (some : s.length ≠ 0) : s.root ≠ none :=
  mt valid.length_eq_zero_iff.mpr some

omit [LawfulAllocator σ α] in
theorem Valid.moved_ensure (valid : s.Valid) (length : Nat) (x : α) (depot : Depot σ) :
    s.Moved (lengthStep s.toList (s.toList ++ List.replicate (length - s.toList.length) x))
      ((s.ensure length x).run depot).1 := by
  refine (returns_ensure length x s depot).lengthStep ?_
  rw [List.length_append, List.length_replicate, valid.length_eq]
  omega

omit [LawfulAllocator σ α] in
theorem Valid.moved_truncate (valid : s.Valid) (length : Nat) (depot : Depot σ) :
    s.Moved (lengthStep s.toList (s.toList.take length)) ((s.truncate length).run depot).1 := by
  have rooted : s.length = 0 ∨ s.root ≠ none :=
    Decidable.or_iff_not_imp_left.mpr valid.root_ne_none
  refine (returns_truncate length rooted depot).lengthStep ?_
  rw [List.length_take, valid.length_eq]
  omega

theorem Valid.moved_removeIf (valid : s.Valid) (test : α → StateM S Bool) (state : S)
    (depot : Depot σ) (sound : LawfulAllocator.Sound depot.allocator) :
    s.Moved (bulkSteps s.isFlat (s.toList.length - ((sift test s.toList).run state).1.length))
      ((s.removeIf test state).run depot).1.2.2 := by
  have removed := (ensures_removeIf valid test state depot sound).2.count
  have count := Nat.eq_sub_of_add_eq (removed.trans (Nat.zero_add _))
  rw [List.drop_zero] at count
  rw [← count]
  exact returns_removeIf test state s depot

theorem Valid.moved_removeAll [BEq α] (valid : s.Valid) (x : α) (depot : Depot σ)
    (sound : LawfulAllocator.Sound depot.allocator) :
    s.Moved (bulkSteps s.isFlat (s.toList.length - (s.toList.filter (· != x)).length))
      ((s.removeAll x).run depot).1.2 := by
  have moved := valid.moved_removeIf (fun y => (pure (y == x) : StateM Unit Bool)) () depot sound
  rwa [sift_pure] at moved

theorem Valid.moved_remove [BEq α] (valid : s.Valid) (x : α) (depot : Depot σ)
    (sound : LawfulAllocator.Sound depot.allocator) :
    s.Moved (lengthStep s.toList (s.toList.erase x)) ((s.remove x).run depot).1.2 := by
  have moved : s.Moved _ ((s.remove x).run depot).1.2 := returns_remove x s depot
  rw [(ensures_remove valid x depot sound).2.1] at moved
  rw [lengthStep, List.erase_eq_eraseP', List.length_eraseP]
  cases found : s.toList.any (· == x) with
  | false => simpa [found] using moved
  | true =>
    have some : s.toList ≠ [] := by
      rintro none
      simp [none] at found
    have positive := List.length_pos_iff.mpr some
    have shorter : s.toList.length - 1 ≠ s.toList.length := by omega
    rw [found] at moved
    rwa [if_pos rfl, if_neg shorter]

end Sequence

namespace Edit

variable [BEq α] [Inhabited α]

/-- By how many steps a call moves the version of a live sequence that holds the elements `xs`, in a
single segment or not. Disposal is no step: it sets the version. -/
def steps (flat : Bool) (xs : List α) (edit : Edit α) : Nat :=
  let after := (edit.onList xs).2
  match edit with
  | push _ | reverse | sort _ | sortUnstable _ => 1
  | extend ys => ys.length
  | pop | removeLast | insert .. | removeAt _ | clear | ensure .. | resize .. | truncate _
  | placeAt .. | remove _ => Sequence.lengthStep xs after
  | removeAll _ | removeIf _ | retain _ => Sequence.bulkSteps flat (xs.length - after.length)
  | set .. | replace .. | replaceLast _ | assign .. | replaceFlat .. | exchange .. | copyFrom ..
  | dispose => 0

open Sequence (Valid lengthStep bulkSteps)

/-- The call takes out every element that a value or a test selects. -/
def InBulk : Edit α → Prop
  | removeAll _ | removeIf _ | retain _ => True
  | _ => False

/-- Only a removal in bulk has steps that depend on the tree. -/
theorem steps_congr {edit : Edit α} (single : ¬edit.InBulk) (flat flat' : Bool) (xs : List α) :
    edit.steps flat xs = edit.steps flat' xs := by
  cases edit
  case removeAll | removeIf | retain => exact absurd trivial single
  all_goals rfl

theorem steps_of_inBulk {edit : Edit α} (bulk : edit.InBulk) (flat : Bool) (xs : List α) :
    edit.steps flat xs = bulkSteps flat (xs.length - (edit.onList xs).2.length) := by
  cases edit
  case removeAll | removeIf | retain => rfl
  all_goals exact bulk.elim

theorem steps_of_refused (flat : Bool) {xs : List α} {edit : Edit α} {failure : Failure}
    (refused : edit.onList xs = (.error failure, xs)) : edit.steps flat xs = 0 := by
  have once : lengthStep xs xs = 0 := if_pos rfl
  have bulk : bulkSteps flat (xs.length - xs.length) = 0 := by
    rw [Nat.sub_self]
    cases flat <;> rfl
  cases edit <;> simp only [steps, refused] <;>
    first | exact once | exact bulk | cases congrArg Prod.fst refused

variable [Allocator σ α] [LawfulAllocator σ α] {s : Sequence α}

theorem moved_perform (valid : s.Valid) {edit : Edit α} (lives : edit ≠ dispose)
    (allowed : edit.violation? s = none) (depot : Depot σ)
    (sound : LawfulAllocator.Sound depot.allocator) :
    s.Moved (edit.steps s.isFlat s.toList) ((edit.perform s).run depot).1.2 := by
  have length := valid.length_eq
  cases edit with
  | push x => exact Sequence.returns_push x s depot
  | extend xs => exact Sequence.returns_extend xs s depot
  | pop => exact valid.moved_pop depot sound
  | removeLast =>
    have some : s.toList ≠ [] := by
      rintro none
      simp [violation?, length, none] at allowed
    rw [steps, onList, List.getLast?_eq_some_getLast some]
    exact valid.moved_pop depot sound
  | insert index x =>
    have inside : index ≤ s.toList.length := by simpa [violation?, length] using allowed
    have possible : index = s.length ∨ s.root ≠ none :=
      Decidable.or_iff_not_imp_left.mpr fun before => valid.root_ne_none (by omega)
    have moved : s.Moved 1 ((perform s (insert index x)).run depot).1.2 :=
      Sequence.returns_insert index x possible depot
    simpa [steps, onList, inside, lengthStep, List.length_insertIdx_of_le_length] using moved
  | removeAt index =>
    have inside : index < s.toList.length := by simpa [violation?, length] using allowed
    have moved : s.Moved 1 ((perform s (removeAt index)).run depot).1.2 :=
      Sequence.returns_removeAt index (valid.root_ne_none (by omega)) depot
    have shorter : s.toList.length - 1 ≠ s.toList.length := by omega
    simpa [steps, onList, inside, lengthStep, List.length_eraseIdx_of_lt, shorter] using moved
  | set index x => exact Sequence.moved_modify ..
  | replace index x => exact Sequence.moved_modify ..
  | replaceLast x => exact Sequence.returns_updateTail _ s depot
  | assign index x => exact Sequence.moved_modify ..
  | replaceFlat index x =>
    simp only [perform]
    split
    · exact Sequence.moved_modify ..
    · exact .refl s
  | exchange first second => exact Sequence.moved_exchange ..
  | clear =>
    refine Sequence.Moved.lengthStep (Sequence.returns_clear s depot) ?_
    rw [← valid.length_eq_zero_iff, and_self, length]
    exact eq_comm
  | dispose => exact absurd rfl lives
  | reverse => exact Sequence.moved_reverse s
  | sort order => exact Sequence.returns_sort order s depot
  | sortUnstable order => exact Sequence.returns_sortUnstable order s depot
  | ensure count x => exact valid.moved_ensure count x depot
  | resize count x =>
    simp only [steps, onList, perform, Sequence.resize]
    rw [length]
    split
    · rename_i longer
      rw [List.take_of_length_le (Nat.le_of_lt longer)]
      exact valid.moved_ensure count x depot
    · rename_i shorter
      rw [Nat.sub_eq_zero_of_le (Nat.not_lt.mp shorter), List.replicate_zero, List.append_nil]
      exact valid.moved_truncate count depot
  | truncate count => exact valid.moved_truncate count depot
  | placeAt index x =>
    refine (Sequence.returns_placeAt index x s depot).lengthStep ?_
    simp only [onList, List.length_set, List.length_append, List.length_replicate, length]
    omega
  | copyFrom source start index count => exact Sequence.moved_overwrite ..
  | remove x => exact valid.moved_remove x depot sound
  | removeAll x => exact valid.moved_removeAll x depot sound
  | removeIf test => exact valid.moved_removeIf test.ask #[] depot sound
  | retain test => exact valid.moved_removeIf (fun x => do return !(← test.ask x)) #[] depot sound

/-- Every call but disposal moves the version of a live sequence by the number of its steps, which
depends on the elements, and only in a removal in bulk on whether they lie in a single segment. A
refused call has no step. -/
theorem moved_apply (valid : s.Valid) (live : s.disposed = false) {edit : Edit α}
    (lives : edit ≠ dispose) (depot : Depot σ) (sound : LawfulAllocator.Sound depot.allocator) :
    s.Moved (edit.steps s.isFlat s.toList) ((edit.apply s).run depot).1.2 := by
  have refusal : edit.refusal? s = edit.violation? s := by simp [refusal?, live]
  unfold apply
  rw [refusal]
  cases violation : edit.violation? s with
  | none => exact moved_perform valid lives violation depot sound
  | some failure =>
    rw [steps_of_refused s.isFlat (onList_of_violation valid violation)]
    exact .refl s

end Edit

end Segmented
