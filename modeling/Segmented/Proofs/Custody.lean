import Segmented.Proofs.Calls
import Segmented.Proofs.Restore
import Segmented.Workspace

/-! Who holds the storage that is out: over any run, the sequences of the workspace and the drains
that sequences were taken apart into, and nobody else. -/

namespace Segmented

variable {σ α : Type}

/-- The capacities of the listed buffers. -/
def capacities (buffers : List (Buffer α)) : Multiset Nat := buffers.map Buffer.capacity

theorem sum_map_capacity (buffers : List (Buffer α)) :
    (buffers.map fun buffer => ({buffer.capacity} : Multiset Nat)).sum = capacities buffers := by
  induction buffers with
  | nil => rfl
  | cons buffer rest ih =>
    rw [List.map_cons, List.sum_cons, ih]
    rfl

theorem capacities_cons (buffer : Buffer α) (rest : List (Buffer α)) :
    capacities (buffer :: rest) = {buffer.capacity} + capacities rest := rfl

theorem capacities_append (first second : List (Buffer α)) :
    capacities (first ++ second) = capacities first + capacities second := by
  simp [capacities]

theorem Sequence.Valid.storage_eq {s : Sequence α} (valid : s.Valid) :
    s.storage = capacities s.segments.toList := by
  cases valid with
  | empty root => simp [storage, segments, root, capacities]
  | tree root packed =>
    rw [storage, segments_eq_row root]
    exact rowStorage_of_filled packed.filled_row

open Depot (Ensures)

namespace Drain

theorem capacity_held (drain : Drain α) :
    drain.held.map Buffer.capacity = drain.buffers.map Buffer.capacity := by
  unfold held
  split <;> simp_all

variable [Allocator σ α] [LawfulAllocator σ α] {limit : Nat}

theorem ensures_advance (clear : Bool) (remaining taken : Nat) (buffers : List (Buffer α)) :
    Ensures (σ := σ) limit (capacities buffers) (advance clear remaining taken buffers)
      (fun answer => capacities answer.2.buffers) fun _ => True := by
  induction buffers generalizing taken with
  | nil => exact Ensures.pure rfl trivial
  | cons buffer rest ih =>
    unfold advance
    cases buffer.items[taken]? with
    | some x => exact Ensures.pure rfl trivial
    | none =>
      rw [capacities_cons]
      apply ((Depot.ensures_release buffer.cleared clear).frame (capacities rest)).bind
      intro _ _
      rw [zero_add]
      exact ih 0

theorem ensures_take (limit : Nat) (drain : Drain α) (count : Nat) :
    Ensures (σ := σ) limit (capacities drain.buffers) (drain.take count)
      (fun answer => capacities answer.2.buffers) fun _ => True := by
  have ensures_go (count : Nat) (taken : List α) (drain : Drain α) :
      Ensures (σ := σ) limit (capacities drain.buffers) (take.go count taken drain)
        (fun answer => capacities answer.2.buffers) fun _ => True := by
    induction count generalizing taken drain with
    | zero => exact Ensures.pure rfl trivial
    | succ count ih =>
      apply Ensures.bind (ensures_advance _ _ _ _)
      intro answer _
      obtain ⟨found, drain⟩ := answer
      cases found with
      | none => exact Ensures.pure rfl trivial
      | some x => exact ih (x :: taken) drain
  exact ensures_go count [] drain

theorem ensures_discard (drain : Drain α) :
    Ensures (σ := σ) limit (capacities drain.buffers) drain.discard (fun _ => 0)
      fun _ => True := by
  have same : capacities drain.held.reverse = capacities drain.buffers := by
    rw [capacities, List.map_reverse, Multiset.coe_reverse, capacity_held]
    rfl
  rw [← same, ← sum_map_capacity]
  exact Ensures.forM fun buffer _ => Depot.ensures_release buffer drain.clearsOnReturn

end Drain

namespace Workspace

/-- The storage of the sequences of a list of slots. -/
def slotStorage (slots : List (Nat × Sequence α)) : Multiset Nat :=
  (slots.map fun slot => slot.2.storage).sum

theorem takeOut_fst (slot : Nat) (slots : List (Nat × Sequence α)) :
    (takeOut slot slots).1 = slots.lookup slot := by
  induction slots with
  | nil => rfl
  | cons first rest ih =>
    obtain ⟨number, s⟩ := first
    rw [takeOut, List.lookup_cons]
    by_cases here : number = slot
    · simp [here]
    · rw [if_neg here, beq_false_of_ne (Ne.symm here)]
      exact ih

theorem perm_of_takeOut {slot : Nat} {slots : List (Nat × Sequence α)} {s : Sequence α}
    (found : (takeOut slot slots).1 = some s) :
    slots.Perm ((slot, s) :: (takeOut slot slots).2) := by
  induction slots with
  | nil => cases found
  | cons first rest ih =>
    obtain ⟨number, t⟩ := first
    rw [takeOut] at found ⊢
    split at found
    · rename_i here
      cases found
      rw [if_pos here, here]
    · rename_i other
      rw [if_neg other]
      exact ((ih found).cons (number, t)).trans (.swap ..)

theorem takeOut_of_none {slot : Nat} {slots : List (Nat × Sequence α)}
    (none : (takeOut slot slots).1 = none) : (takeOut slot slots).2 = slots := by
  induction slots with
  | nil => rfl
  | cons first rest ih =>
    obtain ⟨number, t⟩ := first
    rw [takeOut] at none ⊢
    split at none
    · cases none
    · rename_i other
      rw [if_neg other]
      exact congrArg ((number, t) :: ·) (ih none)

theorem perm_putIn (slot : Nat) (s : Sequence α) (slots : List (Nat × Sequence α)) :
    (putIn slot s slots).Perm ((slot, s) :: slots) := by
  induction slots with
  | nil => exact .refl _
  | cons first rest ih =>
    obtain ⟨number, t⟩ := first
    rw [putIn]
    split
    · exact .refl _
    · exact (ih.cons (number, t)).trans (.swap ..)

theorem slotStorage_of_perm {slots others : List (Nat × Sequence α)} (perm : slots.Perm others) :
    slotStorage slots = slotStorage others :=
  (perm.map _).sum_eq

variable [Allocator σ α] [LawfulAllocator σ α]

/-- Every sequence of the workspace is valid, and its allocator is in a sound state. -/
structure Sound (workspace : Workspace σ α) : Prop where
  allocator : LawfulAllocator.Sound workspace.depot.allocator
  valid : ∀ slot ∈ workspace.slots, slot.2.Valid

/-- One workspace becomes another, in which storage of the capacities `given` has been put to use
and storage of the capacities `taken` is held elsewhere. -/
structure Becomes (limit : Nat) (workspace : Workspace σ α) (given : Multiset Nat)
    (workspace' : Workspace σ α) (taken : Multiset Nat) : Prop where
  extended : Depot.Extends limit (slotStorage workspace.slots + given)
    (slotStorage workspace'.slots + taken) workspace.depot workspace'.depot
  valid : ∀ slot ∈ workspace'.slots, slot.2.Valid

theorem ensures_discardOld (limit : Nat) {old : Option (Sequence α)}
    (valid : ∀ s, old = some s → s.Valid) :
    Ensures (σ := σ) limit (old.elim 0 Sequence.storage) (discardOld old) (fun _ => 0)
      fun _ => True := by
  cases old with
  | none => exact Ensures.pure rfl trivial
  | some s => exact Sequence.ensures_discard (valid s rfl)

/-- What is taken out of the slots and what stays hold the storage of all. -/
theorem slotStorage_takeOut (slot : Nat) (slots : List (Nat × Sequence α)) :
    slotStorage slots = (takeOut slot slots).1.elim 0 Sequence.storage +
      slotStorage (takeOut slot slots).2 := by
  cases found : (takeOut slot slots).1 with
  | none => rw [takeOut_of_none found, Option.elim_none, zero_add]
  | some s => exact slotStorage_of_perm (perm_of_takeOut found)

variable {workspace : Workspace σ α} {limit : Nat}

theorem Sound.of_takeOut (sound : workspace.Sound) (slot : Nat) :
    (∀ s, (takeOut slot workspace.slots).1 = some s → s.Valid) ∧
      ∀ other ∈ (takeOut slot workspace.slots).2, other.2.Valid := by
  have valid := sound.valid
  cases found : (takeOut slot workspace.slots).1 with
  | none =>
    rw [takeOut_of_none found]
    exact ⟨fun _ => nofun, valid⟩
  | some s =>
    have perm := perm_of_takeOut found
    constructor
    · intro t same
      cases same
      exact valid (slot, s) (perm.mem_iff.mpr (.head _))
    · intro other member
      exact valid other (perm.mem_iff.mpr (.tail _ member))

theorem valid_putIn {slots : List (Nat × Sequence α)} (valid : ∀ slot ∈ slots, slot.2.Valid)
    {s : Sequence α} (new : s.Valid) (slot : Nat) :
    ∀ other ∈ putIn slot s slots, other.2.Valid := by
  intro other member
  rcases List.mem_cons.mp ((perm_putIn slot s slots).mem_iff.mp member) with rfl | old
  · exact new
  · exact valid other old

/-- Drops the sequence of a slot, if there is one. -/
def drop (slot : Nat) : Workspace σ α → Workspace σ α
  | { depot, slots } =>
    let (old, slots) := takeOut slot slots
    let ((), depot) := (discardOld old).run depot
    { depot, slots }

theorem becomes_drop (limit : Nat) (sound : workspace.Sound) (slot : Nat) :
    workspace.Becomes limit 0 (workspace.drop slot) 0 := by
  obtain ⟨old, others⟩ := sound.of_takeOut slot
  obtain ⟨extended, -⟩ := ((ensures_discardOld limit old).frame
    (slotStorage (takeOut slot workspace.slots).2)) workspace.depot sound.allocator
  rw [zero_add, ← slotStorage_takeOut] at extended
  refine ⟨?_, others⟩
  rw [add_zero, add_zero]
  exact extended

theorem becomes_put (limit : Nat) (sound : workspace.Sound) {s : Sequence α} (valid : s.Valid)
    (slot : Nat) :
    workspace.Becomes limit s.storage (workspace.put slot s) 0 := by
  obtain ⟨extended, others⟩ := workspace.becomes_drop limit sound slot
  have stored : slotStorage (workspace.put slot s).slots =
      slotStorage (workspace.drop slot).slots + s.storage :=
    (slotStorage_of_perm (perm_putIn slot s _)).trans (add_comm ..)
  refine ⟨?_, valid_putIn others valid slot⟩
  have more := extended.add s.storage
  rw [add_zero, add_zero] at more
  rw [add_zero, stored]
  exact more

omit [Allocator σ α] [LawfulAllocator σ α] in
theorem get?_eq_takeOut (slot : Nat) (workspace : Workspace σ α) :
    workspace.get? slot = (takeOut slot workspace.slots).1 :=
  (takeOut_fst slot workspace.slots).symm

theorem becomes_edit [BEq α] [Inhabited α] (sound : workspace.Sound) {slot : Nat}
    {s : Sequence α} (here : workspace.get? slot = some s) (edit : Edit α) :
    workspace.Becomes s.options.segmentCapacity 0 (workspace.edit slot edit).2 0 := by
  obtain ⟨found, others⟩ := sound.of_takeOut slot
  have total := slotStorage_takeOut slot workspace.slots
  rw [get?_eq_takeOut] at here
  obtain ⟨depot, slots⟩ := workspace
  unfold Workspace.edit
  cases split : takeOut slot slots with
  | mk old rest =>
    simp only [split] at found others total here ⊢
    subst here
    obtain ⟨extended, valid, -⟩ :=
      ((edit.ensures_apply (found s rfl)).frame (slotStorage rest)) depot sound.allocator
    refine ⟨?_, valid_putIn others valid slot⟩
    have extended : Depot.Extends s.options.segmentCapacity _
      (slotStorage ((slot, ((edit.apply s).run depot).1.2) :: rest)) depot _ := extended
    rw [← slotStorage_of_perm (perm_putIn ..)] at extended
    rw [add_zero, add_zero, total]
    exact extended

/-- A sequence that has just been made goes into a slot. -/
theorem becomes_put_made {depot' : Depot σ} {s : Sequence α} (sound : workspace.Sound)
    (made : Depot.Extends limit (slotStorage workspace.slots)
      (s.storage + slotStorage workspace.slots) workspace.depot depot')
    (valid : s.Valid) (target : Nat) :
    workspace.Becomes limit 0 (put target s { depot := depot', slots := workspace.slots }) 0 := by
  have sound' : Sound { depot := depot', slots := workspace.slots } := ⟨made.sound, sound.valid⟩
  have placed := becomes_put limit sound' valid target
  refine ⟨?_, placed.valid⟩
  rw [add_comm] at made
  rw [add_zero]
  exact made.trans placed.extended

theorem becomes_copy (sound : workspace.Sound) {slot : Nat} {s : Sequence α}
    (here : workspace.get? slot = some s) (target : Nat) :
    workspace.Becomes s.options.segmentCapacity 0 (workspace.copy slot target).2 0 := by
  obtain ⟨extended, follows⟩ := (Sequence.ensures_copy s).beside (slotStorage workspace.slots)
    workspace.depot sound.allocator
  simp only [copy, here]
  exact becomes_put_made sound extended follows.valid target

theorem becomes_restore {ω : Type} [reader : Source ω α] [Inhabited α] (sound : workspace.Sound)
    (target : Nat) (source : ω) :
    workspace.Becomes (Snapshot.declared reader source) 0 (workspace.restore target source).2.2
      0 := by
  obtain ⟨extended, valid⟩ := (Snapshot.ensures_restore source).beside
    (slotStorage workspace.slots) workspace.depot sound.allocator
  unfold Workspace.restore withDepot
  dsimp only
  generalize (Snapshot.restore source).run workspace.depot = outcome at extended valid
  obtain ⟨⟨answer, source'⟩, depot'⟩ := outcome
  cases answer with
  | error fault =>
    have extended : Depot.Extends _ _ (0 + slotStorage workspace.slots) _ depot' := extended
    refine ⟨?_, sound.valid⟩
    rw [zero_add] at extended
    rw [add_zero]
    exact extended
  | ok s => exact becomes_put_made sound extended (valid s rfl) target

theorem becomes_drain (sound : workspace.Sound) (slot count : Nat) {taken : List α}
    {drain : Drain α} {workspace' : Workspace σ α}
    (apart : workspace.drain slot count = (some (taken, drain), workspace')) :
    workspace.Becomes limit 0 workspace' (capacities drain.buffers) := by
  obtain ⟨found, others⟩ := sound.of_takeOut slot
  have total := slotStorage_takeOut slot workspace.slots
  obtain ⟨depot, slots⟩ := workspace
  unfold Workspace.drain at apart
  cases split : takeOut slot slots with
  | mk old rest =>
    simp only [split] at found others total apart
    cases old with
    | none => cases apart
    | some s =>
      obtain ⟨extended, -⟩ := ((Drain.ensures_take limit (.ofSequence s) count).frame
        (slotStorage rest)) depot sound.allocator
      dsimp only at apart
      generalize ((Drain.ofSequence s).take count).run depot = outcome at extended apart
      obtain ⟨⟨yielded, left⟩, depot'⟩ := outcome
      cases apart
      have stored : s.storage = capacities (Drain.ofSequence s).buffers := (found s rfl).storage_eq
      refine ⟨?_, others⟩
      rw [add_zero, total, Option.elim_some, stored, add_comm (slotStorage rest)]
      exact extended

theorem becomes_close (sound : workspace.Sound) : workspace.Becomes limit 0 workspace.close 0 := by
  have each : ∀ slot ∈ workspace.slots,
      Ensures (σ := σ) limit slot.2.storage slot.2.discard (fun _ => 0) fun _ => True :=
    fun slot member => Sequence.ensures_discard (sound.valid slot member)
  obtain ⟨extended, -⟩ := Ensures.forM each workspace.depot sound.allocator
  refine ⟨?_, fun _ => nofun⟩
  rw [add_zero, add_zero]
  exact extended

end Workspace

theorem Snapshot.ensures_save {ω : Type} [Allocator σ α] [LawfulAllocator σ α] [Sink ω α]
    (limit : Nat) (s : Sequence α) (sink : ω) (out : Multiset Nat) :
    Ensures (σ := σ) (α := α) limit out (save s sink) (fun _ => out) fun _ => True := by
  unfold save
  split
  · have regular : Notice.Regular (.serialized s.metadata.count s.metadata.segments) :=
      fun _ => nofun
    exact (Depot.ensures_notify regular out).map fun _ _ => ⟨rfl, trivial⟩
  · exact Ensures.pure rfl trivial

/-- A workspace, and the drains that sequences of it were taken apart into. -/
structure Scene (σ α : Type) where
  workspace : Workspace σ α
  drains : List (Drain α) := []

namespace Scene

open Workspace (slotStorage)

/-- The capacities of the buffers that live sequences and live drains hold. -/
def held (scene : Scene σ α) : Multiset Nat :=
  capacities (scene.workspace.slots.flatMap fun slot => slot.2.segments.toList) +
    capacities (scene.drains.flatMap Drain.buffers)

theorem held_eq {scene : Scene σ α} (valid : ∀ slot ∈ scene.workspace.slots, slot.2.Valid) :
    scene.held =
      slotStorage scene.workspace.slots + capacities (scene.drains.flatMap Drain.buffers) := by
  have sum (slots : List (Nat × Sequence α)) (valid : ∀ slot ∈ slots, slot.2.Valid) :
      capacities (slots.flatMap fun slot => slot.2.segments.toList) = slotStorage slots := by
    induction slots with
    | nil => rfl
    | cons slot rest ih =>
      have later := ih fun other member => valid other (by simp [member])
      rw [List.flatMap_cons, capacities_append, later, ← (valid slot (by simp)).storage_eq]
      rfl
  rw [held, sum _ valid]

variable [Allocator σ α] [LawfulAllocator σ α] {limit : Nat}

/-- The drains take in what the workspace lets go of. -/
theorem extends_of_becomes {workspace workspace' : Workspace σ α} {taken : Multiset Nat}
    {drains drains' : List (Drain α)} (sound : workspace.Sound)
    (becomes : workspace.Becomes limit 0 workspace' taken)
    (taker : capacities (drains'.flatMap Drain.buffers) =
      taken + capacities (drains.flatMap Drain.buffers)) :
    Depot.Extends limit (held ⟨workspace, drains⟩) (held ⟨workspace', drains'⟩) workspace.depot
        workspace'.depot ∧ workspace'.Sound := by
  have extended := becomes.extended.add (capacities (drains.flatMap Drain.buffers))
  rw [add_zero, add_assoc, ← taker] at extended
  rw [held_eq sound.valid, held_eq becomes.valid]
  exact ⟨extended, extended.sound, becomes.valid⟩

theorem capacities_among (before after : List (Drain α)) (drain : Drain α) :
    capacities ((before ++ drain :: after).flatMap Drain.buffers) =
      capacities drain.buffers + capacities ((before ++ after).flatMap Drain.buffers) := by
  simp only [List.flatMap_append, List.flatMap_cons, capacities_append]
  exact add_left_comm ..

/-- A step of one drain concerns nobody else. -/
theorem extends_of_ensures {ρ : Type} {workspace : Workspace σ α}
    {before after left : List (Drain α)} {drain : Drain α} {step : Depot.Step σ ρ}
    (sound : workspace.Sound) {given : ρ → Multiset Nat}
    (ensured : Ensures limit (capacities drain.buffers) step given fun _ => True)
    (rest : capacities (left.flatMap Drain.buffers) = given (workspace.withDepot step).1 +
      capacities ((before ++ after).flatMap Drain.buffers)) :
    Depot.Extends limit (held ⟨workspace, before ++ drain :: after⟩)
        (held ⟨(workspace.withDepot step).2, left⟩) workspace.depot
        (workspace.withDepot step).2.depot ∧ (workspace.withDepot step).2.Sound := by
  obtain ⟨extended, -⟩ := (ensured.frame
    (slotStorage workspace.slots + capacities ((before ++ after).flatMap Drain.buffers)))
    workspace.depot sound.allocator
  have valid : ∀ slot ∈ (workspace.withDepot step).2.slots, slot.2.Valid := sound.valid
  rw [held_eq sound.valid, held_eq valid, capacities_among, rest]
  refine ⟨?_, extended.sound, sound.valid⟩
  rw [add_left_comm, add_left_comm (slotStorage (workspace.withDepot step).2.slots)]
  exact extended

variable [BEq α] [Inhabited α]

/-- One operation on a scene, with the segment capacity of the sequence that may rent in it, or zero
if none does. -/
inductive Step : Nat → Scene σ α → Scene σ α → Prop
  | create (workspace : Workspace σ α) (drains : List (Drain α)) (slot hint : Nat)
      (options : Options) :
      Step 0 ⟨workspace, drains⟩ ⟨workspace.put slot (.withCapacity hint options), drains⟩
  | edit (workspace : Workspace σ α) (drains : List (Drain α)) (slot : Nat) {s : Sequence α}
      (here : workspace.get? slot = some s) (edit : Edit α) :
      Step s.options.segmentCapacity ⟨workspace, drains⟩ ⟨(workspace.edit slot edit).2, drains⟩
  | copy (workspace : Workspace σ α) (drains : List (Drain α)) (slot : Nat) {s : Sequence α}
      (here : workspace.get? slot = some s) (target : Nat) :
      Step s.options.segmentCapacity ⟨workspace, drains⟩ ⟨(workspace.copy slot target).2, drains⟩
  | drop (workspace : Workspace σ α) (drains : List (Drain α)) (slot : Nat) :
      Step 0 ⟨workspace, drains⟩ ⟨workspace.drop slot, drains⟩
  | close (workspace : Workspace σ α) (drains : List (Drain α)) :
      Step 0 ⟨workspace, drains⟩ ⟨workspace.close, drains⟩
  | takeApart (workspace : Workspace σ α) (drains : List (Drain α)) (slot count : Nat)
      {taken : List α} {drain : Drain α} {workspace' : Workspace σ α}
      (apart : workspace.drain slot count = (some (taken, drain), workspace')) :
      Step 0 ⟨workspace, drains⟩ ⟨workspace', drain :: drains⟩
  | goOn (workspace : Workspace σ α) (before after : List (Drain α)) (drain : Drain α)
      (count : Nat) :
      Step 0 ⟨workspace, before ++ drain :: after⟩
        ⟨(workspace.withDepot (drain.take count)).2,
          before ++ (workspace.withDepot (drain.take count)).1.2 :: after⟩
  | abandon (workspace : Workspace σ α) (before after : List (Drain α)) (drain : Drain α) :
      Step 0 ⟨workspace, before ++ drain :: after⟩
        ⟨(workspace.withDepot drain.discard).2, before ++ after⟩
  | save {ω : Type} [Sink ω α] (workspace : Workspace σ α) (drains : List (Drain α)) (slot : Nat)
      {s : Sequence α} (here : workspace.get? slot = some s) (sink : ω) :
      Step 0 ⟨workspace, drains⟩ ⟨(workspace.withDepot (Snapshot.save s sink)).2, drains⟩
  | restore {ω : Type} [reader : Source ω α] (workspace : Workspace σ α) (drains : List (Drain α))
      (target : Nat) (source : ω) :
      Step (Snapshot.declared reader source) ⟨workspace, drains⟩
        ⟨(workspace.restore target source).2.2, drains⟩

variable {scene scene' : Scene σ α}

theorem Step.extends (step : Step limit scene scene') (sound : scene.workspace.Sound) :
    Depot.Extends limit scene.held scene'.held scene.workspace.depot scene'.workspace.depot ∧
      scene'.workspace.Sound := by
  cases step with
  | create workspace drains slot hint options =>
    have put := Workspace.becomes_put 0 sound
      (Sequence.valid_empty options (min options.segmentCapacity (max 2 hint))) slot
    rw [Sequence.storage_of_root_none rfl] at put
    exact extends_of_becomes sound put (zero_add _).symm
  | edit workspace drains slot here edit =>
    exact extends_of_becomes sound (Workspace.becomes_edit sound here edit) (zero_add _).symm
  | copy workspace drains slot here target =>
    exact extends_of_becomes sound (Workspace.becomes_copy sound here target) (zero_add _).symm
  | drop workspace drains slot =>
    exact extends_of_becomes sound (Workspace.becomes_drop 0 sound slot) (zero_add _).symm
  | close workspace drains =>
    exact extends_of_becomes sound (Workspace.becomes_close sound) (zero_add _).symm
  | takeApart workspace drains slot count apart =>
    refine extends_of_becomes sound (Workspace.becomes_drain sound slot count apart) ?_
    rw [List.flatMap_cons, capacities_append]
  | goOn workspace before after drain count =>
    exact extends_of_ensures sound (Drain.ensures_take 0 drain count) (capacities_among ..)
  | abandon workspace before after drain =>
    exact extends_of_ensures sound (Drain.ensures_discard drain) (zero_add _).symm
  | save workspace drains slot here sink =>
    obtain ⟨extended, -⟩ := Snapshot.ensures_save 0 _ sink
      (slotStorage workspace.slots + 0) workspace.depot sound.allocator
    exact extends_of_becomes sound ⟨extended, sound.valid⟩ (zero_add _).symm
  | restore workspace drains target source =>
    exact extends_of_becomes sound (Workspace.becomes_restore sound target source)
      (zero_add _).symm

/-- The scenes of a run that starts with an unused allocator and nothing else. -/
inductive Reached : Scene σ α → Prop
  | start (depot : Depot σ) (sound : LawfulAllocator.Sound depot.allocator)
      (unused : depot.calls = #[]) : Reached ⟨{ depot }, []⟩
  | step {limit : Nat} {scene scene' : Scene σ α} (earlier : Reached scene)
      (step : Step limit scene scene') : Reached scene'

theorem Reached.sound (reached : Reached scene) : scene.workspace.Sound := by
  induction reached with
  | start depot sound => exact ⟨sound, fun _ => nofun⟩
  | step _ step sound => exact (step.extends sound).2

theorem Reached.replay_eq (reached : Reached scene) :
    Call.replay scene.workspace.depot.calls.toList 0 = some scene.held := by
  induction reached with
  | start depot sound unused =>
    rw [unused]
    rfl
  | step earlier step account =>
    obtain ⟨calls, record, -, replay⟩ := (step.extends earlier.sound).1.calls
    rw [record, Call.replay_append account, replay]

/-- At every point of a run the capacities that are out are those of the buffers that live sequences
and live drains hold. Every step rents for one element at least and for no more than a segment of
its sequence, and nothing is out once nothing is live. -/
theorem Reached.account (reached : Reached scene) :
    Call.replay scene.workspace.depot.calls.toList 0 = some scene.held ∧
      (∀ limit scene', Step limit scene scene' →
        ∃ calls, scene'.workspace.depot.calls.toList =
            scene.workspace.depot.calls.toList ++ calls ∧ ∀ call ∈ calls, call.Within limit) ∧
      (scene.workspace.slots = [] → scene.drains = [] →
        Call.replay scene.workspace.depot.calls.toList 0 = some 0) := by
  refine ⟨reached.replay_eq, fun limit scene' step => ?_, fun slots drains => ?_⟩
  · obtain ⟨calls, record, within, -⟩ := (step.extends reached.sound).1.calls
    exact ⟨calls, record, within⟩
  · rw [reached.replay_eq, held, slots, drains]
    rfl

theorem account_of_drained_sequence :
    let filled := ((({ depot := { allocator := ⟨⟩ } } : Workspace (Heap Nat) Nat).put 0
      (.withCapacity 0 default)).edit 0 (.extend [1, 2, 3])).2
    Call.replay (filled.drain 0 2).2.depot.calls.toList 0 = some {4} := by
  have reached := Reached.step (.step (.step (.start { allocator := (⟨⟩ : Heap Nat) } trivial rfl)
    (.create _ _ 0 0 default)) (.edit _ _ 0 rfl (.extend [1, 2, 3]))) (.takeApart _ _ 0 2 rfl)
  exact (Reached.account reached).1

end Scene

end Segmented
