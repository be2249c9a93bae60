import Segmented.Allocator.Strategy
import Segmented.Proofs.Depth
import Segmented.Proofs.InPlace
import Segmented.Sequence.Access

/-! Calls that fail. Made in place, a call comes to the same as when everything is checked first, so
that a call that stops has done nothing by then: the sequence, the allocator and the target of a
copy are what they were. -/

namespace Segmented

variable {σ α ρ τ : Type}

/-! ### Calls that stop -/

namespace Attempt

variable [Allocator σ α] {s : Sequence α}

theorem stops_ensure (disposed : s.disposed = true) (length : Nat) (x : α) :
    (ensure length x : Attempt σ α Unit).Stops s (.misuse .disposed) :=
  (stops_assertLive disposed).bind

theorem stops_truncate (disposed : s.disposed = true) (length : Nat) :
    (truncate length : Attempt σ α Unit).Stops s (.misuse .disposed) :=
  (stops_assertLive disposed).bind

theorem stops_resize (disposed : s.disposed = true) (length : Nat) (x : α) :
    (resize length x : Attempt σ α Unit).Stops s (.misuse .disposed) := by
  apply passes_get.stops
  by_cases longer : s.length < length
  · rw [if_pos longer]
    exact stops_ensure disposed length x
  · rw [if_neg longer]
    exact stops_truncate disposed length

theorem passes_pop (live : s.disposed = false) (empty : s.length = 0) :
    (pop : Attempt σ α (Option α)).Passes s none := by
  apply (passes_assertLive live).bind
  apply passes_take
  unfold Sequence.pop
  exact if_pos empty

theorem stops_removeLast (live : s.disposed = false) (empty : s.length = 0) :
    (removeLast : Attempt σ α α).Stops s (.error .empty) :=
  (passes_pop live empty).stops (stops_throw _)

theorem stops_insert (live : s.disposed = false) {index : Nat} (outside : s.length < index)
    (x : α) :
    (insert index x : Attempt σ α Unit).Stops s (.error (.indexOutOfRange index s.length)) := by
  apply (passes_assertLive live).stops
  apply passes_get.stops
  rw [if_pos outside]
  exact stops_throw _

theorem stops_removeAt (live : s.disposed = false) {index : Nat} (outside : s.length ≤ index) :
    (removeAt index : Attempt σ α α).Stops s (.error (.indexOutOfRange index s.length)) := by
  apply (passes_assertLive live).stops
  apply passes_get.stops
  rw [if_pos outside]
  exact stops_throw _

omit [Allocator σ α]

theorem passes_replace {index : Nat} (none : s.get? index = none) (x : α) :
    (replace index x : Attempt σ α (Option α)).Passes s .none := by
  apply passes_get.bind
  rw [none]
  exact passes_pure _

theorem stops_set (live : s.disposed = false) {index : Nat} (none : s.get? index = none) (x : α) :
    (set index x : Attempt σ α α).Stops s (.error (.indexOutOfRange index s.length)) := by
  apply (passes_assertLive live).stops
  apply (passes_replace none x).stops
  exact passes_get.stops (stops_throw _)

theorem stops_assign {index : Nat} (none : s.get? index = none) (x : α) :
    (assign index x : Attempt σ α Unit).Stops s (.misuse (.outOfBounds index s.length)) := by
  apply Stops.bind
  apply (passes_replace none x).stops
  exact passes_get.stops (stops_throw _)

theorem stops_exchange {first second : Nat} (outside : ¬(first < s.length ∧ second < s.length)) :
    (exchange first second : Attempt σ α Unit).Stops s
      (.misuse (.exchange first second s.length)) := by
  apply passes_get.stops
  rw [if_neg outside]
  exact stops_throw _

theorem stops_copyFrom (live : s.disposed = false) {source : Array α} {start index count : Nat}
    {error : Error} (failed : s.checkCopyFrom source start index count = .error error) :
    (copyFrom source start index count : Attempt σ α Unit).Stops s (.error error) := by
  unfold Sequence.checkCopyFrom at failed
  apply (passes_assertLive live).stops
  cases first : checkSpan "src_index" start count source.size with
  | error fault =>
    rw [first] at failed
    cases failed
    exact (stops_require rfl).bind
  | ok _ =>
    rw [first] at failed
    apply (passes_require rfl).stops
    apply passes_get.stops
    exact (stops_require failed).bind

end Attempt

namespace Edit

variable [Allocator σ α] [BEq α] [Inhabited α] {s : Sequence α} {edit : Edit α}

theorem stops_of_disposed (disposed : s.disposed = true) (needsLive : edit.needsLive = true) :
    (edit.call : Attempt σ α (Reply α)).Stops s (.misuse .disposed) := by
  have asserted := Attempt.stops_assertLive (σ := σ) disposed
  cases edit
  case extend xs =>
    cases xs with
    | nil => cases needsLive
    | cons x rest => exact asserted.bind.bind.bind
  case resize length x => exact (Attempt.stops_resize disposed length x).bind
  case removeLast => exact asserted.bind.bind.bind
  case reverse | sort | sortUnstable => exact asserted.bind
  case replace | replaceLast | assign | replaceFlat | exchange | clear | dispose => cases needsLive
  all_goals exact asserted.bind.bind

/-- A call that is refused stops, and has done nothing by then. -/
theorem stops_call (valid : s.Valid) {failure : Failure}
    (refused : edit.refusal? s = some failure) :
    (edit.call : Attempt σ α (Reply α)).Stops s failure := by
  unfold refusal? at refused
  split at refused
  · rename_i dead
    obtain ⟨disposed, needsLive⟩ := Bool.and_eq_true_iff.mp dead
    cases refused
    exact stops_of_disposed disposed needsLive
  rename_i possible
  have live (needsLive : edit.needsLive = true) : s.disposed = false := by
    rw [needsLive, Bool.and_true] at possible
    exact Bool.eq_false_iff.mpr possible
  have outside {index : Nat} (beyond : s.length ≤ index) : s.get? index = none := by
    rw [valid.get?_eq]
    exact List.getElem?_eq_none (valid.length_eq ▸ beyond)
  cases edit with
  | removeLast =>
    obtain ⟨empty, same⟩ := Option.ite_none_right_eq_some.mp refused
    cases same
    exact (Attempt.stops_removeLast (live rfl) empty).bind
  | insert index x =>
    obtain ⟨beyond, same⟩ := Option.ite_none_right_eq_some.mp refused
    cases same
    exact (Attempt.stops_insert (live rfl) beyond x).bind
  | removeAt index =>
    obtain ⟨beyond, same⟩ := Option.ite_none_right_eq_some.mp refused
    cases same
    exact (Attempt.stops_removeAt (live rfl) beyond).bind
  | set index x =>
    obtain ⟨beyond, same⟩ := Option.ite_none_right_eq_some.mp refused
    cases same
    exact (Attempt.stops_set (live rfl) (outside beyond) x).bind
  | assign index x =>
    obtain ⟨beyond, same⟩ := Option.ite_none_right_eq_some.mp refused
    cases same
    exact (Attempt.stops_assign (outside beyond) x).bind
  | exchange first second =>
    obtain ⟨apart, same⟩ := Option.ite_none_left_eq_some.mp refused
    cases same
    exact (Attempt.stops_exchange apart).bind
  | copyFrom source start index count =>
    dsimp only [violation?] at refused
    cases checked : s.checkCopyFrom source start index count with
    | ok _ =>
      rw [checked] at refused
      cases refused
    | error error =>
      rw [checked] at refused
      cases refused
      exact (Attempt.stops_copyFrom (live rfl) checked).bind
  | _ => cases refused

end Edit

/-! ### Calls that go through -/

theorem modify_of_getElem?_eq_none {items : Array τ} {index : Nat} (none : items[index]? = none)
    (change : τ → τ) : items.modify index change = items := by
  refine Array.ext_getElem? fun position => ?_
  rw [Array.getElem?_modify]
  split
  · rename_i here
    rw [← here, none]
    rfl
  · rfl

theorem Tree.modify_of_get?_eq_none {capacity level index : Nat} {tree : Tree α level}
    (none : tree.get? capacity index = none) (change : α → α) :
    tree.modify capacity change index = tree := by
  induction level generalizing index with
  | zero =>
    change Buffer α at tree
    rw [Tree.get?] at none
    rw [Tree.modify, modify_of_getElem?_eq_none none]
  | succ level ih =>
    change Array (Tree α level) at tree
    rw [Tree.get?] at none
    rw [Tree.modify]
    cases found : tree[index / Tree.span capacity level]? with
    | none => rw [modify_of_getElem?_eq_none found]
    | some child =>
      rw [found] at none
      refine Array.ext_getElem? fun position => ?_
      rw [Array.getElem?_modify]
      split
      · rename_i here
        rw [← here, found, Option.map_some, ih none]
      · rfl

namespace Sequence.Valid

variable {s : Sequence α}

theorem modify_of_outside (valid : s.Valid) {index : Nat} (none : s.get? index = none)
    (change : α → α) : s.modify index change = s := by
  rw [valid.get?_eq] at none
  unfold Sequence.modify detach
  cases valid with
  | empty root =>
    rw [root]
    dsimp only
    rw [← root]
  | tree root packed total tail =>
    rw [toList_of_root root, ← packed.get?_eq] at none
    rw [root]
    dsimp only
    rw [Tree.modify_of_get?_eq_none none, ← root]

theorem exists_get? (valid : s.Valid) {index : Nat} (inside : index < s.length) :
    ∃ x, s.get? index = some x := by
  rw [valid.length_eq] at inside
  exact ⟨_, (valid.get?_eq index).trans (List.getElem?_eq_getElem inside)⟩

end Sequence.Valid

namespace Attempt

variable [Allocator σ α] [LawfulAllocator σ α]

/-- On a sound depot the attempt has an answer, and does what the step does. -/
def Does (attempt : Attempt σ α ρ) (s : Sequence α) (step : Depot.Step σ (ρ × Sequence α)) :
    Prop :=
  ∀ depot, LawfulAllocator.Sound depot.allocator →
    (attempt.outcome s).run depot =
      ((.ok (step.run depot).1.1, (step.run depot).1.2), (step.run depot).2)

variable {s : Sequence α} {first : Attempt σ α ρ} {next : ρ → Attempt σ α τ} {answer : ρ}

theorem does_take (step : Sequence α → Depot.Step σ (ρ × Sequence α)) :
    (take step).Does s (step s) := fun _ _ => rfl

theorem does_act (step : Sequence α → Depot.Step σ (Sequence α)) :
    (act step).Does s (do return ((), ← step s)) := fun _ _ => rfl

theorem does_change (step : Sequence α → Sequence α) :
    (change step : Attempt σ α Unit).Does s (pure ((), step s)) := fun _ _ => rfl

theorem Passes.does (passes : first.Passes s answer) {step : Depot.Step σ (τ × Sequence α)}
    (does : (next answer).Does s step) : (first >>= next).Does s step := by
  intro depot sound
  rw [passes.run, does depot sound]

/-- An answer is read off another one. -/
theorem Does.reply {step : Depot.Step σ (ρ × Sequence α)} (does : first.Does s step)
    (reply : ρ → τ) :
    (do return reply (← first) : Attempt σ α τ).Does s
      (do let (answer, s) ← step; return (reply answer, s)) := by
  intro depot sound
  rw [run_outcome_bind, does depot sound]
  rfl

theorem Does.done {attempt : Attempt σ α Unit} {step : Depot.Step σ (Sequence α)}
    (does : attempt.Does s (do return ((), ← step))) :
    (do attempt; return .done : Attempt σ α (Reply α)).Does s (do return (.done, ← step)) :=
  does.reply fun _ => (Reply.done : Reply α)

theorem Does.demand {attempt : Attempt σ α (Option α)}
    {step : Depot.Step σ (Option α × Sequence α)} (does : attempt.Does s step)
    (found : ∀ depot, LawfulAllocator.Sound depot.allocator → ∃ x, (step.run depot).1.1 = some x)
    (missing : Attempt σ α α) (reply : α → τ) (answer : Option α → τ)
    (same : ∀ x, reply x = answer (some x)) :
    (do return reply (← attempt.demand missing) : Attempt σ α τ).Does s
      (do let (found, s) ← step; return (answer found, s)) := by
  intro depot sound
  obtain ⟨x, present⟩ := found depot sound
  unfold Attempt.demand
  rw [run_outcome_bind, run_outcome_bind, does depot sound, present]
  change ((Except.ok (reply x), _), _) = ((Except.ok (answer (step.run depot).1.1), _), _)
  rw [present, same]
  rfl

/-- Attempts in turn do what the steps do in turn. -/
theorem Does.bind {step : Depot.Step σ (ρ × Sequence α)} (does : first.Does s step) {limit : Nat}
    {before : Multiset Nat} {after : ρ × Sequence α → Multiset Nat} {post : ρ × Sequence α → Prop}
    (ensured : Depot.Ensures limit before step after post)
    {later : ρ × Sequence α → Depot.Step σ (τ × Sequence α)}
    (does' : ∀ result, post result → (next result.1).Does result.2 (later result)) :
    (first >>= next).Does s (step >>= later) := by
  intro depot sound
  obtain ⟨extended, holds⟩ := ensured depot sound
  rw [run_outcome_bind, does depot sound]
  exact does' _ holds _ extended.sound

theorem Passes.does_bind (passes : first.Passes s answer) {υ : Type}
    {last : τ → Attempt σ α υ} {step : Depot.Step σ (υ × Sequence α)}
    (does : (next answer >>= last).Does s step) :
    ((first >>= next) >>= last).Does s step := by
  rw [bind_assoc]
  exact passes.does does

theorem Does.tryCatch {step : Depot.Step σ (ρ × Sequence α)} (does : first.Does s step)
    (handle : Failure → Attempt σ α ρ) : (tryCatch first handle).Does s step := by
  intro depot sound
  have done := does depot sound
  unfold outcome at done ⊢
  rw [ExceptT.run_tryCatch, StateT.run_bind, StateT.run_bind, done]
  rfl

theorem does_replace (valid : s.Valid) (index : Nat) (x : α) :
    (replace index x : Attempt σ α (Option α)).Does s
      (pure (s.get? index, s.modify index fun _ => x)) := by
  apply passes_get.does
  cases found : s.get? index with
  | some old => exact fun _ _ => rfl
  | none =>
    rw [valid.modify_of_outside found]
    exact fun _ _ => rfl

section

variable (live : s.disposed = false)

include live

theorem does_push (x : α) :
    (push x : Attempt σ α Unit).Does s (do return ((), ← s.push x)) := by
  apply (passes_assertLive live).does
  exact does_act _

theorem does_pop : (pop : Attempt σ α (Option α)).Does s s.pop := by
  apply (passes_assertLive live).does
  exact does_take _

theorem does_ensure (length : Nat) (x : α) :
    (ensure length x : Attempt σ α Unit).Does s (do return ((), ← s.ensure length x)) := by
  apply (passes_assertLive live).does
  exact does_act _

theorem does_truncate (length : Nat) :
    (truncate length : Attempt σ α Unit).Does s (do return ((), ← s.truncate length)) := by
  apply (passes_assertLive live).does
  exact does_act _

theorem does_resize (length : Nat) (x : α) :
    (resize length x : Attempt σ α Unit).Does s (do return ((), ← s.resize length x)) := by
  apply passes_get.does
  unfold Sequence.resize
  by_cases longer : s.length < length
  · rw [if_pos longer, if_pos longer]
    exact does_ensure live length x
  · rw [if_neg longer, if_neg longer]
    exact does_truncate live length

theorem does_insert {index : Nat} (inside : index ≤ s.length) (x : α) :
    (insert index x : Attempt σ α Unit).Does s (do return ((), ← s.insert index x)) := by
  apply (passes_assertLive live).does
  apply passes_get.does
  rw [if_neg (Nat.not_lt.mpr inside)]
  by_cases last : index = s.length
  · rw [if_pos last]
    unfold Sequence.insert
    rw [if_pos last]
    exact does_push live x
  · rw [if_neg last]
    exact does_act _

theorem does_removeLast (valid : s.Valid) (some : s.length ≠ 0) :
    (do return .element (← removeLast) : Attempt σ α (Reply α)).Does s
      (do let (removed, s) ← s.pop; return (Edit.perform.answer removed, s)) := by
  refine (does_pop live).demand ?_ _ Reply.element Edit.perform.answer fun _ => rfl
  intro depot sound
  obtain ⟨-, removed, -⟩ := Sequence.ensures_pop valid depot sound
  have nonempty : s.toList ≠ [] := by
    rw [valid.length_eq] at some
    exact List.ne_nil_of_length_pos (Nat.pos_of_ne_zero some)
  exact ⟨_, removed.trans (List.getLast?_eq_some_getLast nonempty)⟩

theorem does_removeAt (valid : s.Valid) {index : Nat} (inside : index < s.length)
    (reply : α → τ) (answer : Option α → τ) (same : ∀ x, reply x = answer (some x)) :
    (do return reply (← removeAt index) : Attempt σ α τ).Does s
      (do let (removed, s) ← s.removeAt index; return (answer removed, s)) := by
  unfold removeAt
  apply (passes_assertLive live).does_bind
  apply passes_get.does_bind
  rw [if_neg (Nat.not_le.mpr inside)]
  refine (does_take _).demand ?_ _ reply answer same
  intro depot sound
  obtain ⟨-, removed, -⟩ := Sequence.ensures_removeAt valid inside depot sound
  rw [valid.length_eq] at inside
  exact ⟨_, removed.trans (List.getElem?_eq_getElem inside)⟩

theorem does_copyFrom {source : Array α} {start index count : Nat}
    (passed : s.checkCopyFrom source start index count = .ok ()) :
    (copyFrom source start index count : Attempt σ α Unit).Does s
      (pure ((), s.copyFrom source start index count)) := by
  obtain ⟨there, here⟩ := Sequence.spans_of_checkCopyFrom passed
  apply (passes_assertLive live).does
  apply (passes_require (if_pos there)).does
  apply passes_get.does
  apply (passes_require (if_pos here)).does
  exact does_change _

theorem does_remove [BEq α] (valid : s.Valid) (x : α) :
    (remove x : Attempt σ α Bool).Does s (s.remove x) := by
  apply (passes_assertLive live).does
  apply passes_get.does
  unfold Sequence.remove
  cases found : s.indexOf? x with
  | none => exact fun _ _ => rfl
  | some index =>
    have inside : index < s.length := by
      rw [valid.indexOf?_eq] at found
      obtain ⟨bound, -⟩ := List.findIdx?_eq_some_iff_getElem.mp found
      rwa [valid.length_eq]
    have removed : (do let _ ← removeAt index; return true : Attempt σ α Bool).Does s
        (do let (_, s) ← s.removeAt index; return (true, s)) :=
      does_removeAt live valid inside (fun _ => true) (fun _ => true) fun _ => rfl
    exact removed.tryCatch _

theorem does_extend (valid : s.Valid) (xs : List α) :
    (xs.forM push : Attempt σ α Unit).Does s (do return ((), ← s.extend xs)) := by
  induction xs generalizing s with
  | nil => exact fun _ _ => rfl
  | cons x rest ih =>
    have pushed : Depot.Ensures s.options.segmentCapacity s.storage
        (do return ((), ← s.push x) : Depot.Step σ (Unit × Sequence α))
        (fun after => after.2.storage) fun after => s.Follows (s.toList ++ [x]) after.2 :=
      (Sequence.ensures_push valid x).map fun _ follows => ⟨rfl, follows⟩
    have extended : (push x >>= fun _ => rest.forM push : Attempt σ α Unit).Does s
        ((do return ((), ← s.push x)) >>= fun after => do return ((), ← after.2.extend rest)) :=
      (does_push live x).bind pushed fun after follows =>
        ih (follows.disposed.trans live) follows.valid
    exact extended

theorem does_set (valid : s.Valid) {index : Nat} (inside : index < s.length) (x : α) :
    (do return .element (← set index x) : Attempt σ α (Reply α)).Does s
      (pure (Edit.perform.answer (s.get? index), s.modify index fun _ => x)) := by
  unfold Attempt.set
  apply (passes_assertLive live).does_bind
  exact (does_replace valid index x).demand (fun _ _ => valid.exists_get? inside) _ Reply.element
    Edit.perform.answer fun _ => rfl

open Sequence (countTo) in
theorem does_placeAt [Inhabited α] (valid : s.Valid) (index : Nat) (x : α) :
    (placeAt index x : Attempt σ α Unit).Does s (do return ((), ← s.placeAt index x)) := by
  apply (passes_assertLive live).does
  apply passes_get.does
  have stored {t : Sequence α} (valid : t.Valid) :
      (do let _ ← replace index x : Attempt σ α Unit).Does t
        (pure ((), t.modify index fun _ => x)) :=
    (does_replace valid index x).reply fun _ => ()
  unfold Sequence.placeAt
  by_cases new : s.length ≤ index
  · have ensured : Depot.Ensures s.options.segmentCapacity s.storage
        (do return ((), ← s.ensure (countTo index) default) : Depot.Step σ (Unit × Sequence α))
        (fun after => after.2.storage) fun after => after.2.Valid :=
      (Sequence.ensures_ensure valid (countTo index) default).map fun _ done =>
        ⟨rfl, done.1.valid⟩
    rw [if_pos new, if_pos new]
    have placed : (ensure (countTo index) default >>= fun _ => do let _ ← replace index x :
        Attempt σ α Unit).Does s ((do return ((), ← s.ensure (countTo index) default)) >>=
          fun after => pure ((), after.2.modify index fun _ => x)) :=
      (does_ensure live (countTo index) default).bind ensured fun _ valid => stored valid
    exact placed
  · rw [if_neg new, if_neg new]
    exact stored valid

theorem does_removeIf (test : Test α) :
    (removeIf test : Attempt σ α (Nat × Array α)).Does s do
      let (count, asked, s) ← s.removeIf test.ask #[]
      return ((count, asked), s) := by
  apply (passes_assertLive live).does
  exact does_take _

theorem does_retain (test : Test α) :
    (retain test : Attempt σ α (Array α)).Does s do
      let (_, asked, s) ← s.retain test.ask #[]
      return (asked, s) := by
  apply (passes_assertLive live).does
  exact does_take _

theorem does_removeAll [BEq α] (x : α) :
    (removeAll x : Attempt σ α Nat).Does s (s.removeAll x) := by
  apply (passes_assertLive live).does
  exact does_take _

end

theorem does_assign (valid : s.Valid) {index : Nat} (inside : index < s.length) (x : α) :
    (assign index x : Attempt σ α Unit).Does s (pure ((), s.modify index fun _ => x)) :=
  (does_replace valid index x).demand (fun _ _ => valid.exists_get? inside) _ (fun _ => ())
    (fun _ => ()) fun _ => rfl

theorem does_exchange {first second : Nat} (inside : first < s.length ∧ second < s.length) :
    (exchange first second : Attempt σ α Unit).Does s (pure ((), s.exchange first second)) := by
  apply passes_get.does
  rw [if_pos inside]
  exact does_change _

end Attempt

namespace Edit

variable [Allocator σ α] [LawfulAllocator σ α] [BEq α] [Inhabited α] {s : Sequence α}
  {edit : Edit α}

open Attempt

omit [Allocator σ α] [LawfulAllocator σ α] [BEq α] [Inhabited α] in
theorem live_of_accepted (accepted : edit.refusal? s = none) (needsLive : edit.needsLive = true) :
    s.disposed = false := by
  unfold refusal? at accepted
  rw [needsLive, Bool.and_true] at accepted
  split at accepted
  · cases accepted
  · rename_i live
    exact Bool.eq_false_iff.mpr live

/-- A call that is not refused goes through. -/
theorem does_call (valid : s.Valid) (accepted : edit.refusal? s = none) :
    (edit.call : Attempt σ α (Reply α)).Does s (edit.perform s) := by
  have allowed := violation?_eq_none accepted
  have live := live_of_accepted accepted
  have clear_of {violated : Prop} [Decidable violated] {failure : Failure}
      (none : (if violated then some failure else none) = none) : ¬violated :=
    fun violation => Option.some_ne_none _ ((if_pos violation).symm.trans none)
  have finish {attempt : Attempt σ α Unit} {s' : Sequence α}
      (does : attempt.Does s (pure ((), s'))) :
      (do attempt; return .done : Attempt σ α (Reply α)).Does s (pure (.done, s')) :=
    does.reply fun _ => (Reply.done : Reply α)
  cases edit with
  | push x => exact (does_push (live rfl) x).done
  | extend xs =>
    cases xs with
    | nil => exact fun _ _ => rfl
    | cons x rest => exact (does_extend (live rfl) valid (x :: rest)).done
  | pop => exact (does_pop (live rfl)).reply Reply.option
  | removeLast => exact does_removeLast (live rfl) valid (clear_of allowed)
  | insert index x => exact (does_insert (live rfl) (Nat.not_lt.mp (clear_of allowed)) x).done
  | removeAt index =>
    exact does_removeAt (live rfl) valid (Nat.not_le.mp (clear_of allowed)) Reply.element
      perform.answer fun _ => rfl
  | set index x => exact does_set (live rfl) valid (Nat.not_le.mp (clear_of allowed)) x
  | replace index x => exact (does_replace valid index x).reply Reply.option
  | replaceLast x => exact passes_get.does ((does_act _).reply fun _ => Reply.option s.last?)
  | assign index x => exact finish (does_assign valid (Nat.not_le.mp (clear_of allowed)) x)
  | replaceFlat index x =>
    apply passes_get.does
    dsimp only [perform]
    by_cases flat : s.isFlat
    · rw [if_pos flat, if_pos flat]
      exact (does_replace valid index x).reply Reply.option
    · rw [if_neg flat, if_neg flat]
      exact fun _ _ => rfl
  | exchange first second =>
    have inside : first < s.length ∧ second < s.length := by
      by_contra outside
      exact Option.some_ne_none _ ((if_neg outside).symm.trans allowed)
    exact finish (does_exchange inside)
  | clear => exact (does_act _).done
  | dispose => exact (does_act _).done
  | reverse => exact (passes_assertLive (live rfl)).does (finish (does_change _))
  | sort order => exact (passes_assertLive (live rfl)).does (does_act _).done
  | sortUnstable order => exact (passes_assertLive (live rfl)).does (does_act _).done
  | ensure length x => exact (does_ensure (live rfl) length x).done
  | resize length x => exact (does_resize (live rfl) length x).done
  | truncate length => exact (does_truncate (live rfl) length).done
  | placeAt index x => exact (does_placeAt (live rfl) valid index x).done
  | copyFrom source start index count =>
    have passed : s.checkCopyFrom source start index count = .ok () := by
      dsimp only [violation?] at allowed
      split at allowed
      · assumption
      · cases allowed
    exact finish (does_copyFrom (live rfl) passed)
  | remove x => exact (does_remove (live rfl) valid x).reply Reply.flag
  | removeAll x => exact (does_removeAll (live rfl) x).reply Reply.count
  | removeIf test =>
    exact (does_removeIf (live rfl) test).reply fun answer : Nat × Array α =>
      Reply.removed answer.1 answer.2
  | retain test => exact (does_retain (live rfl) test).reply Reply.retained

/-- Made in place, a call comes to the same as when everything is checked first. -/
theorem run_call (valid : s.Valid) (edit : Edit α) {depot : Depot σ}
    (sound : LawfulAllocator.Sound depot.allocator) :
    (edit.call.outcome s).run depot = (edit.apply s).run depot := by
  cases refused : edit.refusal? s with
  | some failure =>
    rw [run_apply_of_refused refused]
    exact stops_call valid refused depot
  | none =>
    rw [run_apply_of_accepted refused]
    exact does_call valid refused depot sound

omit [LawfulAllocator σ α] in
/-- A call fails just in case it is refused. -/
theorem failed_iff (edit : Edit α) (s : Sequence α) (depot : Depot σ) (failure : Failure) :
    ((edit.apply s).run depot).1.1 = .error failure ↔ edit.refusal? s = some failure := by
  constructor
  · intro failed
    cases refused : edit.refusal? s with
    | some other =>
      rw [run_apply_of_refused refused] at failed
      cases failed
      rfl
    | none =>
      rw [run_apply_of_accepted refused] at failed
      cases failed
  · intro refused
    rw [run_apply_of_refused refused]

end Edit

/-! ### Copies into an array -/

/-- The sum of two machine words, unless it is too large for one. -/
def checkedAdd (a b : Nat) : Option Nat := if a + b < 2 ^ 64 then some (a + b) else none

/-- `checkSpan` as it is made on machine words. -/
def checkWindow (name : String) (start count length : Nat) : Except Error Unit :=
  match checkedAdd start count with
  | some stop => if stop ≤ length then .ok () else .error (.span name start count length)
  | none => .error (.span name start count length)

theorem checkWindow_eq {length : Nat} (small : length < 2 ^ 64) (name : String)
    (start count : Nat) :
    checkWindow name start count length = checkSpan name start count length := by
  unfold checkWindow checkSpan checkedAdd
  by_cases fits : start + count < 2 ^ 64
  · rw [if_pos fits]
  · have beyond : ¬start + count ≤ length := by omega
    rw [if_neg fits, if_neg beyond]

theorem le_of_checkSpan {name : String} {start count length : Nat} {answer : Unit}
    (passed : checkSpan name start count length = .ok answer) : start + count ≤ length := by
  unfold checkSpan at passed
  by_contra outside
  rw [if_neg outside] at passed
  cases passed

namespace Sequence

/-- The target with `count` elements from `start` on written over its own from `index` on, one after
the other. -/
def copyEach (s : Sequence α) : Nat → Nat → Nat → Array α → Array α
  | _, _, 0, target => target
  | start, index, count + 1, target =>
    match s.get? start with
    | some x => copyEach s (start + 1) (index + 1) count (target.setIfInBounds index x)
    | none => copyEach s (start + 1) (index + 1) count target

/-- The target with a run of the sequence written over its elements from `index` on. -/
def writeInto (start index count : Nat) (s : Sequence α) (target : Array α) : Array α :=
  match s.flat? with
  | some items =>
    target.take index ++ items.extract start (start + count) ++ target.drop (index + count)
  | none => s.copyEach start index count target

/-- Copies a run of the sequence into the target in place. -/
def copyInto (start index count : Nat) (s : Sequence α) :
    ExceptT Error (StateM (Array α)) Unit := do
  ExceptT.mk (pure (checkWindow "src_index" start count s.length))
  ExceptT.mk (pure (checkWindow "dest_index" index count (← get).size))
  set (s.writeInto start index count (← get))

variable {s : Sequence α}

theorem Valid.window_eq (valid : s.Valid) {start count : Nat} (inside : start + count ≤ s.length) :
    s.window start count = (s.toList.drop start).take count := by
  rw [valid.length_eq] at inside
  unfold window
  induction count generalizing start with
  | zero => rfl
  | succ count ih =>
    have bound : start < s.toList.length := by omega
    rw [List.range_succ_eq_map, List.filterMap_cons, Nat.add_zero, valid.get?_eq,
      List.getElem?_eq_getElem bound, List.filterMap_map, List.drop_eq_getElem_cons bound,
      List.take_succ_cons, ← ih (by omega)]
    refine congrArg (_ :: ·) (List.filterMap_congr fun offset _ => ?_)
    simp only [Function.comp, Nat.add_assoc, Nat.add_comm 1]

theorem Valid.toList_copyEach (valid : s.Valid) {start index count : Nat} {target : Array α}
    (inside : start + count ≤ s.length) (within : index + count ≤ target.size) :
    (s.copyEach start index count target).toList =
      target.toList.take index ++ (s.toList.drop start).take count ++
        target.toList.drop (index + count) := by
  induction count generalizing start index target with
  | zero => simp [copyEach]
  | succ count ih =>
    have bound : start < s.toList.length := by
      rw [← valid.length_eq]
      omega
    have bound' : index < target.toList.length := by
      rw [Array.length_toList]
      omega
    have within' : index + 1 + count ≤ (target.setIfInBounds index s.toList[start]).size := by
      rw [Array.size_setIfInBounds]
      omega
    rw [copyEach, valid.get?_eq, List.getElem?_eq_getElem bound]
    dsimp only
    rw [ih (by omega) within', Array.toList_setIfInBounds, take_set_append_drop_set bound',
      List.drop_eq_getElem_cons bound, List.take_succ_cons]

theorem Valid.writeInto_eq (valid : s.Valid) {start index count : Nat} {target : Array α}
    (inside : start + count ≤ s.length) (within : index + count ≤ target.size) :
    s.writeInto start index count target =
      target.take index ++ s.window start count ++ target.drop (index + count) := by
  have window := valid.window_eq inside
  unfold writeInto
  cases flat : s.flat? with
  | some items =>
    have run : items.extract start (start + count) = (s.window start count).toArray := by
      apply Array.ext'
      rw [window, flat?_eq_toArray flat, Array.toList_extract, List.extract,
        Nat.add_sub_cancel_left]
      rfl
    dsimp only
    rw [run]
    apply Array.ext'
    simp
  | none =>
    apply Array.ext'
    rw [valid.toList_copyEach inside within, ← window]
    simp

/-- The checks come first, and both of them before anything is written. -/
theorem run_copyInto (s : Sequence α) (start index count : Nat) (target : Array α) :
    (s.copyInto start index count).run.run target =
      match checkWindow "src_index" start count s.length with
      | .error error => (.error error, target)
      | .ok () =>
        match checkWindow "dest_index" index count target.size with
        | .error error => (.error error, target)
        | .ok () => (.ok (), s.writeInto start index count target) := by
  unfold copyInto
  cases checkWindow "src_index" start count s.length with
  | error fault => rfl
  | ok _ =>
    change StateT.run (ExceptT.run (do
      ExceptT.mk (pure (checkWindow "dest_index" index count target.size))
      set (s.writeInto start index count (← get)) : ExceptT Error (StateM (Array α)) Unit))
      target = _
    cases checkWindow "dest_index" index count target.size <;> rfl

theorem target_of_failed_copyInto {start index count : Nat} {target target' : Array α}
    {error : Error} (failed : (s.copyInto start index count).run.run target =
      (.error error, target')) : target' = target := by
  rw [run_copyInto] at failed
  split at failed
  · cases failed
    rfl
  · split at failed
    · cases failed
      rfl
    · cases failed

/-- The copy in place leaves in the target what the copy of a value answers. -/
theorem Valid.run_copyInto_eq (valid : s.Valid) (small : s.length < 2 ^ 64) {target : Array α}
    (small' : target.size < 2 ^ 64) (start index count : Nat) :
    (s.copyInto start index count).run.run target =
      match s.copyTo start target index count with
      | .ok copied => (.ok (), copied)
      | .error error => (.error error, target) := by
  rw [run_copyInto, checkWindow_eq small, checkWindow_eq small']
  unfold copyTo
  cases first : checkSpan "src_index" start count s.length with
  | error fault => rfl
  | ok _ =>
    cases second : checkSpan "dest_index" index count target.size with
    | error fault => rfl
    | ok _ =>
      have written := valid.writeInto_eq (le_of_checkSpan first) (le_of_checkSpan second)
      exact congrArg (fun copied => (Except.ok (), copied)) written

/-! ### Searches -/

theorem state_of_failed_findIn {S : Type} {test : α → StateM S Bool} {start stop : Nat}
    {state state' : S} {error : Error}
    (failed : (s.findIn test start stop).run state = (.error error, state')) : state' = state := by
  unfold findIn at failed
  split at failed
  · cases failed
    rfl
  · rw [StateT.run_map] at failed
    cases congrArg Prod.fst failed

theorem state_of_failed_findLastIn {S : Type} {test : α → StateM S Bool} {start stop : Nat}
    {state state' : S} {error : Error}
    (failed : (s.findLastIn test start stop).run state = (.error error, state')) :
    state' = state := by
  unfold findLastIn at failed
  split at failed
  · cases failed
    rfl
  · rw [StateT.run_map] at failed
    cases congrArg Prod.fst failed

/-! ### Failed calls -/

/-- A call on a reachable sequence that fails, made in place, leaves the whole sequence and the
whole depot as they were; it fails just in case it is refused, and after disposal every call that needs a
live sequence is. A copy that fails leaves its target, and a search of a range that fails has asked
its test about nothing. -/
theorem Reachable.unchanged_of_failure [BEq α] [Inhabited α] {s : Sequence α}
    (reachable : s.Reachable) :
    (∀ {σ : Type} [Allocator σ α] [LawfulAllocator σ α] (edit : Edit α) (depot : Depot σ),
      LawfulAllocator.Sound depot.allocator →
        (edit.call.outcome s).run depot = (edit.apply s).run depot ∧
          (∀ failure, ((edit.call.outcome s).run depot).1.1 = .error failure ↔
            edit.refusal? s = some failure) ∧
          ∀ failure, ((edit.call.outcome s).run depot).1.1 = .error failure →
            (edit.call.outcome s).run depot = ((.error failure, s), depot)) ∧
      (s.disposed = true → ∀ edit : Edit α, edit.needsLive = true →
        edit.refusal? s = some (.misuse .disposed)) ∧
      (∀ start index count (target : Array α),
        (∀ error target', (s.copyInto start index count).run.run target = (.error error, target') →
          target' = target) ∧
        (s.length < 2 ^ 64 → target.size < 2 ^ 64 →
          (s.copyInto start index count).run.run target =
            match s.copyTo start target index count with
            | .ok copied => (.ok (), copied)
            | .error error => (.error error, target))) ∧
      ∀ {S : Type} (test : α → StateM S Bool) start stop (state state' : S) error,
        ((s.findIn test start stop).run state = (.error error, state') → state' = state) ∧
          ((s.findLastIn test start stop).run state = (.error error, state') →
            state' = state) := by
  have valid := reachable.valid
  refine ⟨?_, ?_, ?_, ?_⟩
  · intro σ _ _ edit depot sound
    rw [edit.run_call valid sound]
    refine ⟨rfl, edit.failed_iff s depot, fun failure failed => ?_⟩
    exact Edit.run_apply_of_refused ((edit.failed_iff s depot failure).mp failed) depot
  · intro disposed edit needsLive
    unfold Edit.refusal?
    rw [disposed, needsLive]
    rfl
  · intro start index count target
    exact ⟨fun _ _ => target_of_failed_copyInto, fun small small' =>
      valid.run_copyInto_eq small small' start index count⟩
  · intro S test start stop state state' error
    exact ⟨state_of_failed_findIn, state_of_failed_findLastIn⟩

/-- A push after disposal, and a copy to a place whose end is no machine word. -/
theorem unchanged_after_disposal :
    let live : Sequence Nat := onHeap [.extend [1, 2, 3]]
    let s : Sequence Nat := onHeap [.extend [1, 2, 3], .dispose]
    let depot : Depot (Strategy Nat) := { allocator := .heap ⟨⟩ }
    live.Reachable ∧ s.Reachable ∧ LawfulAllocator.Sound depot.allocator ∧
      ((Edit.push 4).call.outcome s).run depot = ((.error (.misuse .disposed), s), depot) ∧
      (live.copyInto 1 (2 ^ 64 - 1) 2).run.run #[7, 8] =
        (.error (.span "dest_index" (2 ^ 64 - 1) 2 2), #[7, 8]) := by
  intro live s depot
  obtain ⟨edits, disposal, -⟩ :=
    (reachable_onHeap [Edit.extend [1, 2, 3], .dispose]).unchanged_of_failure
  obtain ⟨-, -, copies, -⟩ := (reachable_onHeap [Edit.extend [1, 2, 3]]).unchanged_of_failure
  obtain ⟨-, fails, stays⟩ := edits (.push 4) depot trivial
  have disposed : s.disposed = true := by decide +kernel
  have failed := (fails _).mpr (disposal disposed (.push 4) rfl)
  have three : live.length = 3 := by decide +kernel
  have refused : live.copyTo 1 #[7, 8] (2 ^ 64 - 1) 2 =
      .error (.span "dest_index" (2 ^ 64 - 1) 2 2) := by
    have beyond : ¬2 ^ 64 - 1 + 2 ≤ #[7, 8].size := by decide
    unfold copyTo checkSpan
    rw [three, if_pos (by decide), if_neg beyond]
    rfl
  have copied := (copies 1 (2 ^ 64 - 1) 2 #[7, 8]).2 (three ▸ by decide) (by decide)
  rw [refused] at copied
  exact ⟨reachable_onHeap _, reachable_onHeap _, trivial, stays _ failed, copied⟩

end Sequence

end Segmented
