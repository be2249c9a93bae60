import Mathlib.Algebra.BigOperators.Group.Multiset.Basic
import Segmented.Depot

/-! Accounts of the calls on an allocator: which capacities are out, what one step may add to the
record of a depot, and how the accounts of two steps join. -/

namespace Segmented

/-- The capacities that are out after a list of calls, unless one goes back that is not out. -/
def Call.replay : List Call → Multiset Nat → Option (Multiset Nat)
  | [], out => some out
  | .rent _ got :: rest, out => replay rest (got ::ₘ out)
  | .release capacity _ _ :: rest, out =>
    if capacity ∈ out then replay rest (out.erase capacity) else none

namespace Call

@[simp] theorem replay_nil (out : Multiset Nat) : replay [] out = some out := rfl

theorem replay_append {first second : List Call} {before between : Multiset Nat}
    (opening : replay first before = some between) :
    replay (first ++ second) before = replay second between := by
  induction first generalizing before with
  | nil =>
    obtain rfl := Option.some.inj opening
    rfl
  | cons call rest ih =>
    cases call with
    | rent asked got => exact ih opening
    | release capacity leftover clear =>
      simp only [replay, List.cons_append] at opening ⊢
      split at opening
      · rename_i out
        simpa only [out, if_true] using ih opening
      · cases opening

/-- Capacities that a run of calls does not touch stay out. -/
theorem replay_add {calls : List Call} {before after : Multiset Nat}
    (account : replay calls before = some after) (others : Multiset Nat) :
    replay calls (before + others) = some (after + others) := by
  induction calls generalizing before with
  | nil =>
    obtain rfl := Option.some.inj account
    rfl
  | cons call rest ih =>
    cases call with
    | rent asked got =>
      simp only [replay] at account ⊢
      rw [← Multiset.cons_add]
      exact ih account
    | release capacity leftover clear =>
      simp only [replay] at account ⊢
      split at account
      · rename_i out
        rw [if_pos (Multiset.mem_add.mpr (.inl out)), Multiset.erase_add_left_pos _ out]
        exact ih account
      · cases account

/-- A call asks for at least one element and for no more than `limit`, if it asks for any. -/
def Within (limit : Nat) : Call → Prop
  | .rent asked got => 1 ≤ asked ∧ asked ≤ limit ∧ asked ≤ got
  | .release .. => True

end Call

/-- A notice that tells of no breach. -/
def Notice.Regular (notice : Notice) : Prop := ∀ error, notice ≠ .breach error

namespace Depot

variable {σ α : Type} [Allocator σ α] [LawfulAllocator σ α]

/-- The second depot has a longer record: calls whose account leads from the capacities `before`
to those `after`, each rent for one element to `limit`, and no notice of a breach. -/
structure Extends (limit : Nat) (before after : Multiset Nat) (depot depot' : Depot σ) : Prop where
  sound : LawfulAllocator.Sound depot'.allocator
  calls : ∃ calls : List Call, depot'.calls.toList = depot.calls.toList ++ calls ∧
    (∀ call ∈ calls, call.Within limit) ∧ Call.replay calls before = some after
  notices : ∃ notices : List Notice, depot'.notices.toList = depot.notices.toList ++ notices ∧
    ∀ notice ∈ notices, notice.Regular

theorem Extends.refl {depot : Depot σ} (sound : LawfulAllocator.Sound depot.allocator)
    (limit : Nat) (held : Multiset Nat) : Extends limit held held depot depot where
  sound := sound
  calls := ⟨[], by simp⟩
  notices := ⟨[], by simp⟩

theorem Extends.trans {limit : Nat} {before between after : Multiset Nat}
    {depot depot' depot'' : Depot σ} (first : Extends limit before between depot depot')
    (second : Extends limit between after depot' depot'') :
    Extends limit before after depot depot'' := by
  obtain ⟨calls, record, within, account⟩ := first.calls
  obtain ⟨moreCalls, moreRecord, moreWithin, moreAccount⟩ := second.calls
  obtain ⟨notices, log, regular⟩ := first.notices
  obtain ⟨moreNotices, moreLog, moreRegular⟩ := second.notices
  refine ⟨second.sound, ⟨calls ++ moreCalls, ?_, ?_, ?_⟩, ⟨notices ++ moreNotices, ?_, ?_⟩⟩
  · rw [moreRecord, record, List.append_assoc]
  · intro call member
    exact (List.mem_append.mp member).elim (within call) (moreWithin call)
  · rw [Call.replay_append account, moreAccount]
  · rw [moreLog, log, List.append_assoc]
  · intro notice member
    exact (List.mem_append.mp member).elim (regular notice) (moreRegular notice)

theorem Extends.add {limit : Nat} {before after : Multiset Nat} {depot depot' : Depot σ}
    (extended : Extends limit before after depot depot') (others : Multiset Nat) :
    Extends limit (before + others) (after + others) depot depot' where
  sound := extended.sound
  calls :=
    let ⟨calls, record, within, account⟩ := extended.calls
    ⟨calls, record, within, Call.replay_add account others⟩
  notices := extended.notices

/-- Run on a sound depot, the step turns storage of the capacities `before` into storage of those
that `after` reads off its answer, and the answer satisfies `post`. -/
def Ensures {ρ : Type} (limit : Nat) (before : Multiset Nat) (step : Step σ ρ)
    (after : ρ → Multiset Nat) (post : ρ → Prop) : Prop :=
  ∀ depot : Depot σ, LawfulAllocator.Sound depot.allocator →
    Extends limit before (after (step.run depot).1) depot (step.run depot).2 ∧
      post (step.run depot).1

namespace Ensures

variable {ρ τ : Type} {limit : Nat} {before : Multiset Nat} {after : ρ → Multiset Nat}
  {post : ρ → Prop}

theorem pure {x : ρ} (same : before = after x) (holds : post x) :
    Ensures limit before (pure x : Step σ ρ) after post :=
  fun _ sound => ⟨by subst same; exact Extends.refl sound limit _, holds⟩

theorem bind {step : Step σ ρ} {next : ρ → Step σ τ} {after' : τ → Multiset Nat}
    {post' : τ → Prop} (first : Ensures limit before step after post)
    (second : ∀ x, post x → Ensures limit (after x) (next x) after' post') :
    Ensures limit before (step >>= next) after' post' := by
  intro depot sound
  obtain ⟨extended, holds⟩ := first depot sound
  obtain ⟨extended', holds'⟩ := second _ holds _ extended.sound
  exact ⟨extended.trans extended', holds'⟩

/-- A step that ends with an answer read off another answer. -/
theorem map {step : Step σ ρ} {answer : ρ → τ} {after' : τ → Multiset Nat} {post' : τ → Prop}
    (first : Ensures limit before step after post)
    (last : ∀ x, post x → after x = after' (answer x) ∧ post' (answer x)) :
    Ensures limit before (do let x ← step; return answer x) after' post' :=
  first.bind fun x holds => Ensures.pure (last x holds).1 (last x holds).2

theorem weaken {step : Step σ ρ} {after' : ρ → Multiset Nat} {post' : ρ → Prop}
    (first : Ensures limit before step after post)
    (last : ∀ x, post x → after x = after' x ∧ post' x) :
    Ensures limit before step after' post' := by
  intro depot sound
  obtain ⟨extended, holds⟩ := first depot sound
  obtain ⟨same, holds'⟩ := last _ holds
  exact ⟨same ▸ extended, holds'⟩

/-- Storage that a step does not touch is still there after it. -/
theorem frame {step : Step σ ρ} (first : Ensures limit before step after post)
    (others : Multiset Nat) :
    Ensures limit (before + others) step (fun x => after x + others) post := by
  intro depot sound
  obtain ⟨extended, holds⟩ := first depot sound
  exact ⟨extended.add others, holds⟩

/-- A step that starts without storage leaves all storage alone. -/
theorem beside {step : Step σ ρ} (first : Ensures limit 0 step after post)
    (others : Multiset Nat) :
    Ensures limit others step (fun x => after x + others) post := by
  simpa only [zero_add] using first.frame others

/-- A step for each of the items that gives back what the item holds. -/
theorem forM {items : List τ} {held : τ → Multiset Nat} {step : τ → Step σ Unit}
    (each : ∀ item ∈ items, Ensures limit (held item) (step item) (fun _ => 0) fun _ => True) :
    Ensures limit (items.map held).sum (items.forM step) (fun _ => 0) fun _ => True := by
  induction items with
  | nil => exact Ensures.pure rfl trivial
  | cons item rest ih =>
    rw [List.map_cons, List.sum_cons]
    change Ensures limit _ (step item >>= fun _ => rest.forM step) _ _
    apply ((each item (by simp)).frame (rest.map held).sum).bind
    intro _ _
    rw [zero_add]
    exact ih fun item member => each item (by simp [member])

theorem forM_toList {items : Array τ} {held : τ → Multiset Nat} {step : τ → Step σ Unit}
    (each : ∀ item ∈ items.toList,
      Ensures limit (held item) (step item) (fun _ => 0) fun _ => True) :
    Ensures limit (items.toList.map held).sum (items.forM step) (fun _ => 0) fun _ => True := by
  have same : items.forM step = items.toList.forM step := (List.forM_toArray items.toList step)
  rw [same]
  exact forM each

end Ensures

theorem ensures_rent {limit asked : Nat} (positive : 1 ≤ asked) (bound : asked ≤ limit) :
    Ensures (σ := σ) (α := α) limit 0 (rent asked) (fun buffer => {buffer.capacity})
      (fun buffer => buffer.items = #[] ∧ asked ≤ buffer.capacity) := by
  intro depot sound
  have enough : asked ≤ (Allocator.rent asked depot.allocator).1.capacity :=
    LawfulAllocator.rent_capacity asked sound
  refine ⟨⟨LawfulAllocator.rent_sound asked sound,
    ⟨[.rent asked (Allocator.rent asked depot.allocator).1.capacity], ?_, ?_, ?_⟩,
    ⟨[], ?_, ?_⟩⟩, LawfulAllocator.rent_empty asked sound, enough⟩
  · exact Array.toList_push
  · simp only [List.mem_singleton, forall_eq]
    exact ⟨positive, bound, enough⟩
  · rfl
  · exact (List.append_nil _).symm
  · simp

theorem ensures_release {limit : Nat} (buffer : Buffer α) (clear : Bool) :
    Ensures (σ := σ) (α := α) limit {buffer.capacity} (release buffer clear) (fun _ => 0)
      (fun _ => True) := by
  intro depot sound
  refine ⟨⟨LawfulAllocator.release_sound buffer clear sound,
    ⟨[.release buffer.capacity buffer.size clear], ?_, ?_, ?_⟩, ⟨[], ?_, ?_⟩⟩, trivial⟩
  · exact Array.toList_push
  · simp [Call.Within]
  · simp [Call.replay]
  · exact (List.append_nil _).symm
  · simp

theorem ensures_notify {limit : Nat} {notice : Notice} (regular : notice.Regular)
    (held : Multiset Nat) :
    Ensures (σ := σ) (α := α) limit held (notify notice) (fun _ => held) (fun _ => True) := by
  intro depot sound
  refine ⟨⟨sound, ⟨[], (List.append_nil _).symm, ?_, rfl⟩, ⟨[notice], ?_, ?_⟩⟩, trivial⟩
  · simp
  · exact Array.toList_push
  · simpa using regular

end Depot

end Segmented
