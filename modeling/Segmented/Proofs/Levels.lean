import Segmented.Edit
import Segmented.Proofs.Removal
import Segmented.Proofs.Versions

/-! Which levels the trees grow to, as the notices tell: only the opening of a sibling beside a root
gives a tree another level, and it tells so. Nothing here depends on the state of a sequence. -/

namespace Segmented

variable {σ α : Type}

/-- The level that a notice says a tree has grown to. -/
def Notice.level? : Notice → Option Nat
  | .grewLevel level _ => some level
  | _ => none

namespace Depot

/-- The levels that trees have grown to, in the order of the notices. -/
def levels (depot : Depot σ) : List Nat := depot.notices.toList.filterMap Notice.level?

/-- The step tells of no growth. -/
def Quiet {ρ : Type} (step : Step σ ρ) : Prop :=
  ∀ depot : Depot σ, (step.run depot).2.levels = depot.levels

namespace Quiet

variable {ρ τ : Type}

theorem pure (x : ρ) : Quiet (pure x : Step σ ρ) := fun _ => rfl

theorem bind {step : Step σ ρ} {next : ρ → Step σ τ} (first : Quiet step)
    (second : ∀ x, Quiet (next x)) : Quiet (step >>= next) :=
  fun depot => (second _ _).trans (first depot)

/-- A step that ends with an answer read off another answer. -/
theorem map {step : Step σ ρ} (first : Quiet step) (answer : ρ → τ) :
    Quiet (do let x ← step; return answer x) :=
  first.bind fun x => pure (answer x)

theorem forM {items : Array ρ} {step : ρ → Step σ Unit} (each : ∀ item, Quiet (step item)) :
    Quiet (items.forM step) := by
  have same : items.forM step = items.toList.forM step := List.forM_toArray items.toList step
  rw [same]
  induction items.toList with
  | nil => exact pure ()
  | cons item rest ih => exact (each item).bind fun _ => ih

theorem notify {notice : Notice} (other : notice.level? = none) :
    Quiet (Depot.notify notice : Step σ Unit) := by
  intro depot
  simp [Depot.notify, levels, StateT.run, other]

variable [Allocator σ α]

theorem rent (asked : Nat) : Quiet (Depot.rent asked : Step σ (Buffer α)) := fun _ => rfl

theorem reclaim (buffer : Buffer α) (clear : Bool) :
    Quiet (Depot.reclaim buffer clear : Step σ Unit) := by
  unfold Depot.reclaim
  split
  · exact fun _ => rfl
  · exact pure ()

end Quiet

end Depot

open Depot (Quiet Returns)

variable [Allocator σ α]

/-! ### Segments -/

namespace Buffer

variable (options : Options) (buffer : Buffer α)

theorem quiet_start (asked : Nat) : Quiet (start options asked : Depot.Step σ (Buffer α)) := by
  unfold start
  dsimp only
  split
  · exact Quiet.pure _
  · exact Quiet.rent _

theorem quiet_regrow (capacity : Nat) :
    Quiet (buffer.regrow options capacity : Depot.Step σ (Buffer α)) :=
  (Quiet.rent _).bind fun _ => (Quiet.reclaim _ _).map _

theorem quiet_makeRoom : Quiet (buffer.makeRoom options : Depot.Step σ (Buffer α)) := by
  unfold makeRoom
  split
  · exact Quiet.pure _
  · exact quiet_regrow options buffer _

theorem quiet_settle : Quiet (buffer.settle options : Depot.Step σ (Buffer α)) := by
  unfold settle
  split
  · exact (Quiet.reclaim _ _).map _
  · exact Quiet.pure _

theorem quiet_push (x : α) : Quiet (buffer.push options x : Depot.Step σ (Buffer α)) := by
  unfold push
  split
  · exact (Quiet.notify rfl).map _
  · exact (quiet_makeRoom options buffer).map _

theorem quiet_insert (index : Nat) (x : α) :
    Quiet (buffer.insert options index x : Depot.Step σ (Buffer α)) := by
  unfold insert
  split
  · exact (Quiet.notify rfl).map _
  split
  · exact (Quiet.notify rfl).map _
  · exact (quiet_makeRoom options buffer).map _

theorem quiet_removeAt (index : Nat) :
    Quiet (buffer.removeAt options index : Depot.Step σ (Option α × Buffer α)) := by
  unfold removeAt
  split
  · exact (Quiet.notify rfl).map _
  · exact (quiet_settle options _).map _

theorem quiet_pop : Quiet (buffer.pop options : Depot.Step σ (Option α × Buffer α)) := by
  unfold pop
  split
  · exact Quiet.pure _
  · exact (quiet_settle options _).map _

theorem quiet_fill (count : Nat) (x : α) :
    Quiet (buffer.fill options count x : Depot.Step σ (Buffer α)) := by
  unfold fill
  dsimp only
  split
  · exact (Quiet.notify rfl).map _
  split
  · exact (quiet_regrow options buffer _).map _
  · exact Quiet.pure _

end Buffer

/-! ### Trees -/

namespace Tree

variable (options : Options)

theorem quiet_push (x : α) {level : Nat} (tree : Tree α level) :
    Quiet (tree.push options x : Depot.Step σ _) := by
  induction level with
  | zero =>
    change Buffer α at tree
    rw [push]
    split
    · exact (Buffer.quiet_start options _).bind fun next => (Buffer.quiet_push options next x).map _
    · exact (Buffer.quiet_push options tree x).map _
  | succ level ih =>
    change Array (Tree α level) at tree
    rw [push]
    split
    · exact (Quiet.notify rfl).map _
    · exact (ih _).map _

theorem quiet_fill (x : α) (count : Nat) {level : Nat} (tree : Tree α level) :
    Quiet (tree.fill options x count : Depot.Step σ _) := by
  induction level with
  | zero =>
    change Buffer α at tree
    rw [fill]
    split
    · exact (Buffer.quiet_fill options tree _ x).map _
    split
    · exact Quiet.pure _
    · exact (Buffer.quiet_start options count).bind fun next =>
        (Buffer.quiet_fill options next _ x).map _
  | succ level ih =>
    change Array (Tree α level) at tree
    rw [fill]
    split
    · exact (Quiet.notify rfl).map _
    · exact (ih _).map _

omit [Allocator σ α] in
theorem quiet_insertAcross {τ : Type} {insert : Nat → α → τ → Depot.Step σ (τ × Option α)}
    (each : ∀ index x tree, Quiet (insert index x tree)) (done : Array τ) (index : Nat) (x : α)
    (later : List τ) : Quiet (insertAcross insert done index x later) := by
  induction later generalizing done index x with
  | nil => exact Quiet.pure _
  | cons tree rest ih =>
    refine (each index x tree).bind fun answer => ?_
    obtain ⟨tree, carry⟩ := answer
    cases carry with
    | none => exact Quiet.pure _
    | some carry => exact ih _ _ _

theorem quiet_insert {level : Nat} (index : Nat) (x : α) (tree : Tree α level) :
    Quiet (tree.insert options index x : Depot.Step σ _) := by
  induction level generalizing index x with
  | zero =>
    change Buffer α at tree
    rw [insert]
    split
    · split
      · exact Quiet.pure _
      · exact (Buffer.quiet_insert options _ index x).map _
    · exact (Buffer.quiet_insert options tree index x).map _
  | succ level ih =>
    change Array (Tree α level) at tree
    rw [insert]
    exact quiet_insertAcross ih _ _ _ _

omit [Allocator σ α] in
theorem quiet_pullAcross {level : Nat}
    {remove : Nat → Option α → Tree α level → Depot.Step σ (Option α × Tree α level)}
    (each : ∀ index incoming tree, Quiet (remove index incoming tree))
    (before : List (Tree α level)) (carry : Option α) (later : List (Tree α level)) :
    Quiet (pullAcross remove before carry later) := by
  induction before generalizing carry later with
  | nil => exact Quiet.pure _
  | cons tree rest ih => exact (each 0 carry tree).bind fun answer => ih _ _

theorem quiet_removeAt {level : Nat} (index : Nat) (incoming : Option α) (tree : Tree α level) :
    Quiet (tree.removeAt options index incoming : Depot.Step σ _) := by
  induction level generalizing index incoming with
  | zero =>
    refine (Buffer.quiet_removeAt options tree index).bind fun answer => ?_
    cases incoming with
    | none => exact Quiet.pure _
    | some x => exact (Buffer.quiet_push options _ x).map _
  | succ level ih =>
    change Array (Tree α level) at tree
    rw [removeAt]
    split
    · exact (Quiet.notify rfl).map _
    · exact (quiet_pullAcross ih _ _ _).bind fun _ => (ih _ _ _).map _

theorem quiet_pop {level : Nat} (tree : Tree α level) :
    Quiet (tree.pop options : Depot.Step σ _) := by
  induction level with
  | zero => exact (Buffer.quiet_pop options tree).map _
  | succ level ih =>
    change Array (Tree α level) at tree
    rw [pop]
    split
    · exact Quiet.pure _
    · exact (ih _).map _

theorem quiet_popMany {level : Nat} (count : Nat) (tree : Tree α level) :
    Quiet (tree.popMany options count : Depot.Step σ _) := by
  induction count generalizing tree with
  | zero => exact Quiet.pure _
  | succ count ih => exact (quiet_pop options tree).bind fun _ => ih _

end Tree

/-! ### Levels gained -/

/-- The levels above `low` up to `high`. -/
def gained (low high : Nat) : List Nat := List.range' (low + 1) (high - low)

theorem gained_of_le {low high : Nat} (order : high ≤ low) : gained low high = [] := by
  rw [gained, Nat.sub_eq_zero_of_le order, List.range'_zero]

theorem gained_append {low between high : Nat} (first : low ≤ between) (second : between ≤ high) :
    gained low between ++ gained between high = gained low high := by
  obtain ⟨few, rfl⟩ := Nat.exists_eq_add_of_le first
  obtain ⟨more, rfl⟩ := Nat.exists_eq_add_of_le second
  have all : low + few + more - low = few + more := by rw [Nat.add_assoc, Nat.add_sub_cancel_left]
  have start : low + few + 1 = low + 1 + few := Nat.add_right_comm ..
  rw [gained, gained, gained, all, Nat.add_sub_cancel_left, Nat.add_sub_cancel_left, start,
    List.range'_append_1]

/-- The first level is not gained by growth. -/
theorem gained_trans {low between high : Nat} (first : low ≤ between) (second : between ≤ high) :
    gained (max low 1) between ++ gained (max between 1) high = gained (max low 1) high := by
  rcases Nat.eq_zero_or_pos between with zero | positive
  · obtain rfl : low = between := by omega
    rw [gained_of_le (by omega), List.nil_append]
  · rw [Nat.max_eq_left positive, gained_append (Nat.max_le.mpr ⟨first, positive⟩) second]

namespace Root

/-- The step answers a tree at least as deep as `level`, and tells of each level above it. -/
def Climbs (level : Nat) (step : Depot.Step σ (Root α)) : Prop :=
  ∀ depot : Depot σ, level ≤ (step.run depot).1.level ∧
    (step.run depot).2.levels =
      depot.levels ++ gained (level + 1) ((step.run depot).1.level + 1)

omit [Allocator σ α] in
theorem Climbs.pure (root : Root α) : Climbs root.level (pure root : Depot.Step σ (Root α)) := by
  intro depot
  constructor
  · exact Nat.le_refl _
  · change depot.levels = depot.levels ++ gained (root.level + 1) (root.level + 1)
    rw [gained_of_le (Nat.le_refl _), List.append_nil]

omit [Allocator σ α] in
theorem Climbs.bind {level : Nat} {step : Depot.Step σ (Root α)}
    {next : Root α → Depot.Step σ (Root α)} (first : Climbs level step)
    (second : ∀ root, Climbs root.level (next root)) : Climbs level (step >>= next) := by
  intro depot
  obtain ⟨order, told⟩ := first depot
  obtain ⟨order', told'⟩ := second (step.run depot).1 (step.run depot).2
  refine ⟨Nat.le_trans order order', told'.trans ?_⟩
  rw [told, List.append_assoc,
    gained_append (Nat.succ_le_succ order) (Nat.succ_le_succ order')]
  rfl

omit [Allocator σ α] in
/-- A quiet step comes before the growth. -/
theorem Climbs.after {level : Nat} {ρ : Type} {step : Depot.Step σ ρ}
    {next : ρ → Depot.Step σ (Root α)} (first : Quiet step)
    (second : ∀ x, Climbs level (next x)) : Climbs level (step >>= next) := by
  intro depot
  obtain ⟨order, told⟩ := second (step.run depot).1 (step.run depot).2
  exact ⟨order, told.trans (congrArg (· ++ _) (first depot))⟩

omit [Allocator σ α] in
theorem climbs_join {level : Nat} (length : Nat) (tree : Tree α level)
    (sibling : Option (Tree α level)) :
    Climbs level (join length tree sibling : Depot.Step σ (Root α)) := by
  cases sibling with
  | none => exact Climbs.pure { level, tree }
  | some sibling =>
    intro depot
    constructor
    · exact Nat.le_succ level
    · have next : gained (level + 1) (level + 2) = [level + 2] := by simp [gained]
      change (depot.notices.push (.grewLevel (level + 2) length)).toList.filterMap Notice.level? =
        depot.levels ++ gained (level + 1) (level + 2)
      rw [next, Array.toList_push, List.filterMap_append]
      rfl

theorem climbs_push (options : Options) (length : Nat) (x : α) (root : Root α) :
    Climbs root.level (root.push options length x : Depot.Step σ (Root α)) :=
  Climbs.after (Tree.quiet_push options x root.tree) fun _ => climbs_join _ _ _

theorem climbs_fill (options : Options) (length : Nat) (x : α) (count : Nat) (root : Root α) :
    Climbs root.level (root.fill options length x count : Depot.Step σ (Root α)) := by
  induction count using Nat.strongRecOn generalizing root with
  | ind count ih =>
    unfold fill
    split
    · exact Climbs.pure root
    · refine Climbs.after (Tree.quiet_fill options x count root.tree) fun answer => ?_
      refine Climbs.bind (climbs_join _ _ _) fun grown => ?_
      split
      · rename_i fewer
        exact ih answer.2.2 fewer grown
      · exact Climbs.after (Quiet.notify rfl) fun _ => Climbs.pure grown

end Root

omit [Allocator σ α] in
theorem Tree.quiet_updateSegment {change : Buffer α → Depot.Step σ (Buffer α)}
    (each : ∀ segment, Quiet (change segment)) {level : Nat} (number : Nat)
    (tree : Tree α level) : Quiet (tree.updateSegment change number) := by
  induction level generalizing number with
  | zero => exact each tree
  | succ level ih =>
    change Array (Tree α level) at tree
    rw [updateSegment, Array.modifyM]
    split
    · exact (ih _ _).map _
    · exact Quiet.pure _

namespace Sequence

/-- The step leaves a sequence at least as deep as `s`, and tells of each level gained. -/
def Climbs (s : Sequence α) (step : Depot.Step σ (Sequence α)) : Prop :=
  ∀ depot : Depot σ, s.depth ≤ (step.run depot).1.depth ∧
    (step.run depot).2.levels =
      depot.levels ++ gained (max s.depth 1) (step.run depot).1.depth

variable {s s' : Sequence α}

omit [Allocator σ α] in
theorem Climbs.of_quiet {step : Depot.Step σ (Sequence α)} (quiet : Quiet step)
    (same : Returns step fun s' => s'.depth = s.depth) : s.Climbs step := by
  intro depot
  have same := same depot
  refine ⟨Nat.le_of_eq same.symm, ?_⟩
  rw [quiet depot, same, gained_of_le (Nat.le_max_left ..), List.append_nil]

omit [Allocator σ α] in
theorem Climbs.pure (same : s'.depth = s.depth) :
    s.Climbs (pure s' : Depot.Step σ (Sequence α)) :=
  .of_quiet (Quiet.pure s') (Returns.pure same)

omit [Allocator σ α] in
theorem Climbs.bind {step : Depot.Step σ (Sequence α)}
    {next : Sequence α → Depot.Step σ (Sequence α)} (first : s.Climbs step)
    (second : ∀ between : Sequence α, between.Climbs (next between)) :
    s.Climbs (step >>= next) := by
  intro depot
  obtain ⟨order, told⟩ := first depot
  obtain ⟨order', told'⟩ := second (step.run depot).1 (step.run depot).2
  refine ⟨Nat.le_trans order order', told'.trans ?_⟩
  rw [told, List.append_assoc, gained_trans order order']
  rfl

omit [Allocator σ α] in
/-- A quiet step comes before the growth. -/
theorem Climbs.after {ρ : Type} {step : Depot.Step σ ρ} {next : ρ → Depot.Step σ (Sequence α)}
    (first : Quiet step) (second : ∀ x, s.Climbs (next x)) : s.Climbs (step >>= next) := by
  intro depot
  obtain ⟨order, told⟩ := second (step.run depot).1 (step.run depot).2
  exact ⟨order, told.trans (congrArg (· ++ _) (first depot))⟩

omit [Allocator σ α] in
/-- A new tree at least as deep as the old one, or a first tree. -/
theorem Climbs.of_root {level : Nat} {step : Depot.Step σ (Root α)}
    {answer : Root α → Sequence α} (first : Root.Climbs level step)
    (old : max s.depth 1 = level + 1) (new : ∀ root, (answer root).depth = root.level + 1) :
    s.Climbs (do let root ← step; return answer root) := by
  intro depot
  obtain ⟨order, told⟩ := first depot
  change s.depth ≤ (answer (step.run depot).1).depth ∧
    (step.run depot).2.levels = _ ++ gained _ (answer (step.run depot).1).depth
  rw [new, old]
  have below : s.depth ≤ level + 1 := old ▸ Nat.le_max_left ..
  exact ⟨Nat.le_trans below (Nat.succ_le_succ order), told⟩

theorem depth_of_root {level : Nat} {tree : Tree α level} (root : s.root = some { level, tree }) :
    s.depth = level + 1 := by
  rw [depth, root]

omit [Allocator σ α] in
theorem quiet_updateTail {change : Buffer α → Depot.Step σ (Buffer α)}
    (each : ∀ segment, Quiet (change segment)) (s : Sequence α) :
    Quiet (s.updateTail change) := by
  unfold updateTail
  split
  · exact Quiet.pure _
  split
  · exact Quiet.pure _
  · exact (Tree.quiet_updateSegment each _ _).map _

omit [Allocator σ α] in
theorem depth_updateTail (change : Buffer α → Depot.Step σ (Buffer α)) (s : Sequence α) :
    Returns (s.updateTail change) fun s' => s'.depth = s.depth := by
  obtain ⟨root, length, tail⟩ := s
  cases tail with
  | none => exact Returns.pure rfl
  | some number =>
    cases root with
    | none => exact Returns.pure rfl
    | some root => exact Returns.after fun _ => Returns.pure rfl

theorem depth_modify (index : Nat) (change : α → α) (s : Sequence α) :
    (s.modify index change).depth = s.depth := by
  obtain ⟨root⟩ := s
  cases root <;> rfl

theorem depth_refill (contents : Array α) (s : Sequence α) :
    (s.refill contents).depth = s.depth := by
  obtain ⟨root⟩ := s
  cases root <;> rfl

theorem depth_exchange (first second : Nat) (s : Sequence α) :
    (s.exchange first second).depth = s.depth := by
  unfold exchange
  split
  · rw [depth_modify, depth_modify]
  · rfl

theorem depth_overwrite (index : Nat) (xs : List α) (s : Sequence α) :
    (s.overwrite index xs).depth = s.depth := by
  induction xs generalizing s index with
  | nil => rfl
  | cons x rest ih => exact (ih ..).trans (depth_modify ..)

theorem climbs_pushDeep (x : α) (s : Sequence α) : s.Climbs (σ := σ) (s.pushDeep x) := by
  unfold pushDeep
  cases here : s.root with
  | none =>
    simp only [detach, here]
    have first : Root.Climbs 0 (Root.singleton s.options s.firstCapacity x : Depot.Step σ _) :=
      Root.Climbs.after (Buffer.quiet_start _ _) fun _ =>
        Root.Climbs.after (Buffer.quiet_push _ _ _) fun segment =>
          Root.Climbs.pure { level := 0, tree := segment }
    exact Climbs.of_root first (by simp [depth, here]) fun _ => rfl
  | some root =>
    simp only [detach, here]
    have more := Root.climbs_push (σ := σ) s.options s.length x root
    exact Climbs.of_root more (by simp [depth, here]) fun _ => rfl

theorem climbs_push (x : α) (s : Sequence α) : s.Climbs (σ := σ) (s.push x) := by
  unfold push
  dsimp only
  split
  · have quiet (segment : Buffer α) := Buffer.quiet_push (σ := σ) s.options segment x
    refine Climbs.of_quiet ((quiet_updateTail quiet s).map _) ?_
    exact Returns.map (depth_updateTail _ s) fun _ same => same
  · exact climbs_pushDeep x s

theorem climbs_extend (xs : List α) (s : Sequence α) : s.Climbs (σ := σ) (s.extend xs) := by
  unfold extend
  induction xs generalizing s with
  | nil => exact Climbs.pure rfl
  | cons x rest ih =>
    rw [List.foldlM_cons]
    exact Climbs.bind (climbs_push x s) ih

theorem climbs_insertDeep (index : Nat) (x : α) {root : Root α} {s t : Sequence α}
    (old : s.root = some root) : s.Climbs (σ := σ) (t.insertDeep index x root) := by
  obtain ⟨level, tree⟩ := root
  refine Climbs.after (Tree.quiet_insert t.options index x tree) fun answer => ?_
  obtain ⟨tree', carry⟩ := answer
  have height : max s.depth 1 = level + 1 := by simp [depth, old]
  cases carry with
  | none => exact Climbs.of_root (Root.Climbs.pure { level, tree := tree' }) height fun _ => rfl
  | some carry =>
    have more := Root.climbs_push (σ := σ) t.options t.length carry { level, tree := tree' }
    exact Climbs.of_root more height fun _ => rfl

theorem climbs_insert (index : Nat) (x : α) (s : Sequence α) :
    s.Climbs (σ := σ) (s.insert index x) := by
  unfold insert
  split
  · exact climbs_push x s
  cases here : s.root with
  | none =>
    simp only [detach, here]
    exact Climbs.after (Quiet.notify rfl) fun _ => Climbs.pure (by simp [depth, here])
  | some root =>
    obtain ⟨level, tree⟩ := root
    have deep := climbs_insertDeep (σ := σ) (t := { s with root := none }) index x here
    simp only [detach, here]
    cases level with
    | succ level => exact deep
    | zero =>
      change Buffer α at tree
      cases room : tree.isFull s.options with
      | true => simpa only [room, if_true] using deep
      | false =>
        have old : s.depth = 1 := depth_of_root here
        simp only [room, Bool.false_eq_true, if_false]
        exact Climbs.after (Buffer.quiet_insert s.options tree index x) fun _ =>
          Climbs.pure old.symm

theorem climbs_ensure (length : Nat) (x : α) (s : Sequence α) :
    s.Climbs (σ := σ) (s.ensure length x) := by
  unfold ensure
  split
  · exact Climbs.pure rfl
  cases here : s.root with
  | none =>
    simp only [detach, here, Root.start, bind_assoc, pure_bind]
    refine Climbs.after (Buffer.quiet_start s.options _) fun segment => ?_
    have more := Root.climbs_fill (σ := σ) s.options s.length x (length - s.length)
      { level := 0, tree := segment }
    exact Climbs.of_root more (by simp [depth, here]) fun _ => rfl
  | some root =>
    simp only [detach, here, pure_bind]
    have more := Root.climbs_fill (σ := σ) s.options s.length x (length - s.length) root
    exact Climbs.of_root more (by simp [depth, here]) fun _ => rfl

theorem climbs_placeAt [Inhabited α] (index : Nat) (x : α) (s : Sequence α) :
    s.Climbs (σ := σ) (s.placeAt index x) := by
  rw [placeAt_eq]
  apply (climbs_ensure (countTo index) default s).bind
  intro s'
  exact Climbs.pure (depth_modify index _ s')

/-! ### Levels lost -/

/-- The second sequence is as deep as the first, or has no tree. -/
def Lowered (s s' : Sequence α) : Prop := s'.depth = s.depth ∨ s'.depth = 0

theorem Lowered.trans {s'' : Sequence α} (first : s.Lowered s') (second : s'.Lowered s'') :
    s.Lowered s'' := by
  rcases second with same | none
  · exact first.imp same.trans same.trans
  · exact .inr none

/-- The step tells of no growth, and the sequence in its answer is as deep as `s` or has no tree. -/
def Sinks {ρ : Type} (s : Sequence α) (step : Depot.Step σ ρ) (left : ρ → Sequence α) : Prop :=
  ∀ depot : Depot σ, (step.run depot).2.levels = depot.levels ∧ s.Lowered (left (step.run depot).1)

namespace Sinks

variable {ρ τ : Type} {step : Depot.Step σ ρ} {next : ρ → Depot.Step σ τ} {left : ρ → Sequence α}
  {left' : τ → Sequence α}

omit [Allocator σ α] in
theorem pure {x : ρ} (lowered : s.Lowered (left x)) :
    s.Sinks (pure x : Depot.Step σ ρ) left := fun _ => ⟨rfl, lowered⟩

omit [Allocator σ α] in
/-- A quiet step comes before the removal. -/
theorem after (first : Quiet step) (second : ∀ x, s.Sinks (next x) left') :
    s.Sinks (step >>= next) left' := by
  intro depot
  obtain ⟨silent, lowered⟩ := second (step.run depot).1 (step.run depot).2
  exact ⟨silent.trans (first depot), lowered⟩

omit [Allocator σ α] in
theorem bind (first : s.Sinks step left) (second : ∀ x, (left x).Sinks (next x) left') :
    s.Sinks (step >>= next) left' := by
  intro depot
  obtain ⟨silent, lowered⟩ := first depot
  obtain ⟨silent', lowered'⟩ := second (step.run depot).1 (step.run depot).2
  exact ⟨silent'.trans silent, lowered.trans lowered'⟩

omit [Allocator σ α] in
/-- A removal that ends with an answer with the same sequence in it. -/
theorem map (first : s.Sinks step left) (answer : ρ → τ) (same : ∀ x, left' (answer x) = left x) :
    s.Sinks (do let x ← step; return answer x) left' :=
  first.bind fun x => pure (.inl (congrArg depth (same x)))

end Sinks

omit [Allocator σ α] in
theorem sinks_updateTail {change : Buffer α → Depot.Step σ (Buffer α)}
    (each : ∀ segment, Quiet (change segment)) (s : Sequence α) :
    s.Sinks (s.updateTail change) id :=
  fun depot => ⟨quiet_updateTail each s depot, .inl (depth_updateTail change s depot)⟩

theorem quiet_reclaimAll (options : Options) (root : Option (Root α)) :
    Quiet (reclaimAll options root : Depot.Step σ Unit) := by
  cases root with
  | none => exact Quiet.pure ()
  | some root => exact Quiet.forM fun segment => Quiet.reclaim segment _

theorem sinks_settle (s : Sequence α) : s.Sinks (σ := σ) s.settle id := by
  unfold settle
  split
  · exact .after (quiet_reclaimAll _ _) fun _ => .after (Quiet.notify rfl) fun _ => .pure (.inr rfl)
  · exact .pure (.inl rfl)

theorem sinks_clear (s : Sequence α) : s.Sinks (σ := σ) s.clear id := by
  unfold clear
  split
  · exact .pure (.inl rfl)
  · exact .after (quiet_reclaimAll _ _) fun _ => .pure (.inr rfl)

theorem sinks_dispose (s : Sequence α) : s.Sinks (σ := σ) s.dispose id := by
  unfold dispose
  split
  · exact .pure (.inl rfl)
  · exact .bind (sinks_clear s) fun _ => .after (Quiet.notify rfl) fun _ => .pure (.inl rfl)

theorem sinks_popDeep (s : Sequence α) : s.Sinks (σ := σ) s.popDeep Prod.snd := by
  obtain ⟨root⟩ := s
  cases root with
  | none => exact .pure (.inl rfl)
  | some root =>
    refine .after (Tree.quiet_pop _ root.tree) fun answer => ?_
    obtain ⟨removed, tree⟩ := answer
    cases removed with
    | none => exact .pure (.inl rfl)
    | some x => exact .map (sinks_settle _) _ fun _ => rfl

theorem sinks_pop (s : Sequence α) : s.Sinks (σ := σ) s.pop Prod.snd := by
  unfold pop
  split
  · exact .pure (.inl rfl)
  split
  · exact .bind (sinks_updateTail (fun _ => Quiet.pure _) s) fun _ => .pure (.inl rfl)
  · exact sinks_popDeep s

theorem sinks_removeAt (index : Nat) (s : Sequence α) :
    s.Sinks (σ := σ) (s.removeAt index) Prod.snd := by
  obtain ⟨root⟩ := s
  cases root with
  | none => exact .after (Quiet.notify rfl) fun _ => .pure (.inl rfl)
  | some root =>
    exact .after (Tree.quiet_removeAt _ index none root.tree) fun _ =>
      .map (sinks_settle _) _ fun _ => rfl

theorem sinks_truncate (length : Nat) (s : Sequence α) :
    s.Sinks (σ := σ) (s.truncate length) id := by
  unfold truncate
  split
  · exact .pure (.inl rfl)
  split
  · exact sinks_clear s
  · obtain ⟨root⟩ := s
    cases root with
    | none => exact .pure (.inl rfl)
    | some root =>
      obtain ⟨level, tree⟩ := root
      cases level with
      | zero => exact .after (Buffer.quiet_settle _ _) fun _ => sinks_settle _
      | succ level => exact .after (Tree.quiet_popMany _ _ tree) fun _ => sinks_settle _

theorem sinks_remove [BEq α] (x : α) (s : Sequence α) :
    s.Sinks (σ := σ) (s.remove x) Prod.snd := by
  unfold remove
  split
  · exact .pure (.inl rfl)
  · exact .map (sinks_removeAt _ s) _ fun _ => rfl

variable {S : Type}

theorem sinks_removeEach (test : α → StateM S Bool) (bound start earlier : Nat) (state : S)
    (s : Sequence α) :
    s.Sinks (σ := σ) (removeEach test bound start earlier state s) fun answer => answer.2.2 := by
  induction bound generalizing s start earlier state with
  | zero => exact .pure (.inl rfl)
  | succ bound ih =>
    rw [removeEach]
    split
    · exact .pure (.inl rfl)
    · exact .bind (sinks_removeAt _ s) fun _ => ih _ _ _ _

theorem sinks_removeIf (test : α → StateM S Bool) (state : S) (s : Sequence α) :
    s.Sinks (σ := σ) (s.removeIf test state) fun answer => answer.2.2 := by
  by_cases segment : ∃ segment, s.root = some { level := 0, tree := segment }
  · obtain ⟨segment, root⟩ := segment
    have old : s.depth = 1 := depth_of_root root
    rw [removeIf_of_segment root]
    dsimp only
    split
    · exact .pure (.inl old.symm)
    · refine .after (Buffer.quiet_settle _ _) fun swept => ?_
      intro depot
      obtain ⟨silent, lowered⟩ := sinks_settle (σ := σ)
        { s with root := some { level := 0, tree := swept }, length := _, version := _ } depot
      exact ⟨silent, by rw [Lowered, old]; exact lowered⟩
  · rw [removeIf_of_deep (not_exists.mp segment)]
    exact sinks_removeEach test _ _ _ state s

theorem sinks_removeAll [BEq α] (x : α) (s : Sequence α) :
    s.Sinks (σ := σ) (s.removeAll x) Prod.snd :=
  .map (sinks_removeIf _ () s) _ fun _ => rfl

omit [Allocator σ α] in
theorem sinks_sortUnstable (order : α → α → Ordering) (s : Sequence α) :
    s.Sinks (s.sortUnstable order : Depot.Step σ _) id := by
  unfold sortUnstable
  split
  · exact .pure (.inl (depth_refill _ s))
  split
  · exact .pure (.inl (depth_refill _ s))
  · exact .after (Quiet.notify rfl) fun _ => .pure (.inl rfl)

/-! ### Every call -/

/-- The step leaves no tree or one at least as deep as that of `s`, and tells of each level gained.
-/
def Gains {ρ : Type} (s : Sequence α) (step : Depot.Step σ ρ) (left : ρ → Sequence α) : Prop :=
  ∀ depot : Depot σ, let after := step.run depot
    ((left after.1).depth = 0 ∨ s.depth ≤ (left after.1).depth) ∧
      after.2.levels = depot.levels ++ gained (max s.depth 1) (left after.1).depth

omit [Allocator σ α] in
theorem Climbs.gains {step : Depot.Step σ (Sequence α)} (climbs : s.Climbs step)
    {ρ : Type} (answer : ρ) : s.Gains (do return (answer, ← step)) Prod.snd :=
  fun depot => ⟨.inr (climbs depot).1, (climbs depot).2⟩

omit [Allocator σ α] in
theorem Sinks.gains {ρ : Type} {step : Depot.Step σ ρ} {left : ρ → Sequence α}
    (sinks : s.Sinks step left) : s.Gains step left := by
  intro depot
  obtain ⟨silent, lowered⟩ := sinks depot
  have none : gained (max s.depth 1) (left (step.run depot).1).depth = [] := by
    apply gained_of_le
    rcases lowered with same | zero
    · exact same ▸ Nat.le_max_left ..
    · exact zero ▸ Nat.zero_le _
  refine ⟨lowered.symm.imp id fun same => Nat.le_of_eq same.symm, ?_⟩
  rw [none, List.append_nil]
  exact silent

theorem depth_le_one_of_flat {items : Array α} (flat : s.flat? = some items) : s.depth ≤ 1 := by
  unfold flat? at flat
  unfold depth
  split at flat
  · rename_i none
    rw [none]
    exact Nat.zero_le 1
  · rename_i segment root
    rw [root]
  · cases flat

/-- A stable sort starts from the first level again. -/
theorem levels_sort (order : α → α → Ordering) (s : Sequence α) (depot : Depot σ) :
    ((s.sort order).run depot).2.levels =
      depot.levels ++ gained 1 ((s.sort order).run depot).1.depth := by
  unfold sort
  split
  · rename_i items flat
    have shallow := depth_le_one_of_flat flat
    have none : gained 1 (s.refill (stableSort order items.toList).toArray).bump.depth = [] :=
      gained_of_le ((depth_refill _ s).trans_le shallow)
    exact ((congrArg (depot.levels ++ ·) none).trans (List.append_nil _)).symm
  · have rebuilt : ({} : Sequence α).Climbs (σ := σ) (s.sortRebuilt order) := by
      unfold sortRebuilt takeAll
      simp only [bind_assoc, pure_bind]
      refine Climbs.after (Quiet.forM fun _ => Quiet.reclaim _ _) fun _ => ?_
      refine Climbs.after (Quiet.notify rfl) fun _ => ?_
      exact Climbs.bind (climbs_extend _ { s with root := none, tail := none, length := 0 })
        fun _ => Climbs.pure rfl
    exact (rebuilt depot).2

end Sequence

namespace Edit

variable [BEq α] [Inhabited α]

/-- The call can add elements. -/
def Grows : Edit α → Prop
  | push _ | extend _ | insert .. | ensure .. | resize .. | placeAt .. => True
  | _ => False

theorem sinks_perform {edit : Edit α} (shrinks : ¬edit.Grows)
    (unsorted : ∀ order, edit ≠ .sort order) (s : Sequence α) :
    s.Sinks (σ := σ) (edit.perform s) Prod.snd := by
  cases edit with
  | pop => exact .map (Sequence.sinks_pop s) _ fun _ => rfl
  | removeLast => exact .map (Sequence.sinks_pop s) _ fun _ => rfl
  | removeAt index => exact .map (Sequence.sinks_removeAt index s) _ fun _ => rfl
  | set index x => exact .pure (.inl (Sequence.depth_modify ..))
  | replace index x => exact .pure (.inl (Sequence.depth_modify ..))
  | replaceLast x =>
    exact .map (Sequence.sinks_updateTail (fun _ => Quiet.pure _) s) _ fun _ => rfl
  | assign index x => exact .pure (.inl (Sequence.depth_modify ..))
  | replaceFlat index x =>
    rw [perform]
    split
    · exact .pure (.inl (Sequence.depth_modify ..))
    · exact .pure (.inl rfl)
  | exchange first second => exact .pure (.inl (Sequence.depth_exchange ..))
  | clear => exact .map (Sequence.sinks_clear s) _ fun _ => rfl
  | dispose => exact .map (Sequence.sinks_dispose s) _ fun _ => rfl
  | reverse => exact .pure (.inl (Sequence.depth_refill _ s))
  | sort order => exact absurd rfl (unsorted order)
  | sortUnstable order => exact .map (Sequence.sinks_sortUnstable order s) _ fun _ => rfl
  | truncate length => exact .map (Sequence.sinks_truncate length s) _ fun _ => rfl
  | copyFrom source start index count => exact .pure (.inl (Sequence.depth_overwrite ..))
  | remove x => exact .map (Sequence.sinks_remove x s) _ fun _ => rfl
  | removeAll x => exact .map (Sequence.sinks_removeAll x s) _ fun _ => rfl
  | removeIf test => exact .map (Sequence.sinks_removeIf _ _ s) _ fun _ => rfl
  | retain test => exact .map (Sequence.sinks_removeIf _ _ s) _ fun _ => rfl
  | push | extend | insert | ensure | resize | placeAt => exact absurd trivial shrinks

/-- Every call but a stable sort leaves no tree or one at least as deep as before, and tells of each
level that it gains. -/
theorem gains_perform {edit : Edit α} (unsorted : ∀ order, edit ≠ .sort order) (s : Sequence α) :
    s.Gains (σ := σ) (edit.perform s) Prod.snd := by
  by_cases grows : edit.Grows
  · cases edit with
    | push x => exact (Sequence.climbs_push x s).gains _
    | extend xs => exact (Sequence.climbs_extend xs s).gains _
    | insert index x => exact (Sequence.climbs_insert index x s).gains _
    | ensure length x => exact (Sequence.climbs_ensure length x s).gains _
    | resize length x =>
      by_cases longer : s.length < length
      · rw [perform, Sequence.resize, if_pos longer]
        exact (Sequence.climbs_ensure length x s).gains _
      · rw [perform, Sequence.resize, if_neg longer]
        exact (Sequence.Sinks.map (Sequence.sinks_truncate length s) _ fun _ => rfl).gains
    | placeAt index x => exact (Sequence.climbs_placeAt index x s).gains _
    | _ => exact grows.elim
  · exact (sinks_perform grows unsorted s).gains

theorem gains_apply {edit : Edit α} (unsorted : ∀ order, edit ≠ .sort order) (s : Sequence α) :
    s.Gains (σ := σ) (edit.apply s) Prod.snd := by
  unfold apply
  cases edit.refusal? s with
  | some failure => exact Sequence.Sinks.gains (.pure (.inl rfl))
  | none => exact fun depot => gains_perform unsorted s depot

end Edit

end Segmented
