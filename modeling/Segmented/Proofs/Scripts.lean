import Segmented.Allocator.Strategy
import Segmented.Proofs.Peers

/-! Runs of operations on several sequences that share one allocator. Two runs of the same
operations, with any allocators and any orders to clear what goes back, cannot be told apart. -/

namespace Segmented

variable {σ τ α : Type}

/-- One operation on a scene. Sequences are named by their slots and drains by their places. -/
inductive Command (α : Type) : Type 1
  | create (slot hint : Nat) (options : Options)
  | edit (slot : Nat) (edit : Edit α)
  | copy (slot target : Nat)
  | drop (slot : Nat)
  | close
  | takeApart (slot count : Nat)
  | goOn (place count : Nat)
  | abandon (place : Nat)
  | save {ω : Type} [Sink ω α] (slot : Nat) (sink : ω)
  | restore {ω : Type} [Source ω α] (target : Nat) (source : ω)

/-- What an operation answers. A drain tells what it has yielded and how many elements remain. -/
def Command.Answer : Command α → Type
  | create .. | drop _ | close | abandon _ => Unit
  | edit .. => Option (Except Failure (Reply α))
  | copy .. => Bool
  | takeApart .. | goOn .. => Option (List α × Nat)
  | @save _ ω _ _ _ => Option (Except SnapshotError Unit × ω)
  | @restore _ ω _ _ _ => Except SnapshotError Unit × ω

namespace Scene

variable [Allocator σ α]

/-- Takes the sequence of a slot apart and keeps the drain that is left. -/
def takeApart (slot count : Nat) (scene : Scene σ α) : Option (List α × Nat) × Scene σ α :=
  match scene.workspace.drain slot count with
  | (none, workspace) => (none, { scene with workspace })
  | (some (yielded, drain), workspace) =>
    (some (yielded, drain.remaining), ⟨workspace, drain :: scene.drains⟩)

/-- Takes further elements from the drain of a place. -/
def goOn (place count : Nat) (scene : Scene σ α) : Option (List α × Nat) × Scene σ α :=
  match scene.drains[place]? with
  | none => (none, scene)
  | some drain =>
    let ((yielded, drain), workspace) := scene.workspace.withDepot (drain.take count)
    (some (yielded, drain.remaining), ⟨workspace, scene.drains.set place drain⟩)

/-- Drops the drain of a place. -/
def abandon (place : Nat) (scene : Scene σ α) : Scene σ α :=
  match scene.drains[place]? with
  | none => scene
  | some drain =>
    ⟨(scene.workspace.withDepot drain.discard).2, scene.drains.eraseIdx place⟩

/-- Writes the sequence of a slot to a sink. -/
def save {ω : Type} [Sink ω α] (slot : Nat) (sink : ω) (scene : Scene σ α) :
    Option (Except SnapshotError Unit × ω) × Scene σ α :=
  match scene.workspace.get? slot with
  | none => (none, scene)
  | some s =>
    let (answer, workspace) := scene.workspace.withDepot (Snapshot.save s sink)
    (some answer, { scene with workspace })

variable [BEq α] [Inhabited α]

/-- Carries an operation out. A sequence that it creates has its buffers cleared or not, as
`clear` says. -/
def perform (clear : Bool) (scene : Scene σ α) :
    (command : Command α) → command.Answer × Scene σ α
  | .create slot hint options =>
    let s := .withCapacity hint { options with clearsOnReturn := clear }
    ((), { scene with workspace := scene.workspace.put slot s })
  | .edit slot edit =>
    let (answer, workspace) := scene.workspace.edit slot edit
    (answer, { scene with workspace })
  | .copy slot target =>
    let (answer, workspace) := scene.workspace.copy slot target
    (answer, { scene with workspace })
  | .drop slot => ((), { scene with workspace := scene.workspace.drop slot })
  | .close => ((), { scene with workspace := scene.workspace.close })
  | .takeApart slot count => scene.takeApart slot count
  | .goOn place count => scene.goOn place count
  | .abandon place => ((), scene.abandon place)
  | @Command.save _ _ _ slot sink => scene.save slot sink
  | @Command.restore _ _ _ target source =>
    let (answer, source, workspace) := scene.workspace.restore target source
    ((answer, source), { scene with workspace })

/-- What each operation of a script answers, and the scene after it. -/
def play : List (Command α × Bool) → Scene σ α →
    List ((Σ command : Command α, command.Answer) × Scene σ α)
  | [], _ => []
  | (command, clear) :: rest, scene =>
    let (answer, scene) := scene.perform clear command
    (⟨command, answer⟩, scene) :: play rest scene

end Scene

namespace Drain

variable {drains others : List (Drain α)}

theorem rel_getElem? (drained : List.Forall₂ Peers drains others) (place : Nat) :
    Option.Rel Peers drains[place]? others[place]? := by
  induction drained generalizing place with
  | nil => exact .none
  | cons first rest ih =>
    cases place with
    | zero => exact .some first
    | succ place => exact ih place

theorem rel_set (drained : List.Forall₂ Peers drains others) (place : Nat)
    {drain other : Drain α} (new : drain.Peers other) :
    List.Forall₂ Peers (drains.set place drain) (others.set place other) := by
  induction drained generalizing place with
  | nil => exact .nil
  | cons first rest ih =>
    cases place with
    | zero => exact .cons new rest
    | succ place => exact .cons first (ih place)

theorem rel_eraseIdx (drained : List.Forall₂ Peers drains others) (place : Nat) :
    List.Forall₂ Peers (drains.eraseIdx place) (others.eraseIdx place) := by
  rw [List.eraseIdx_eq_take_drop_succ, List.eraseIdx_eq_take_drop_succ]
  exact List.rel_append (List.forall₂_take place drained) (List.forall₂_drop (place + 1) drained)

end Drain

namespace Workspace

/-- The slots have the same numbers and hold peers. -/
def SlotPeers (slots others : List (Nat × Sequence α)) : Prop :=
  List.Forall₂ (fun slot other => slot.1 = other.1 ∧ slot.2.Peers other.2) slots others

theorem SlotPeers.takeOut {slots others : List (Nat × Sequence α)} (peers : SlotPeers slots others)
    (slot : Nat) :
    Option.Rel Sequence.Peers (takeOut slot slots).1 (takeOut slot others).1 ∧
      SlotPeers (takeOut slot slots).2 (takeOut slot others).2 := by
  induction peers with
  | nil => exact ⟨.none, .nil⟩
  | cons first rest ih =>
    rename_i here there _ _
    obtain ⟨number, s⟩ := here
    obtain ⟨number', t⟩ := there
    obtain ⟨same, alike⟩ := first
    dsimp only at same alike
    subst same
    rw [Workspace.takeOut, Workspace.takeOut]
    by_cases found : number = slot
    · rw [if_pos found, if_pos found]
      exact ⟨.some alike, rest⟩
    · rw [if_neg found, if_neg found]
      exact ⟨ih.1, .cons ⟨rfl, alike⟩ ih.2⟩

theorem SlotPeers.putIn {slots others : List (Nat × Sequence α)} (peers : SlotPeers slots others)
    (slot : Nat) {s t : Sequence α} (new : s.Peers t) :
    SlotPeers (putIn slot s slots) (putIn slot t others) := by
  induction peers with
  | nil => exact .cons ⟨rfl, new⟩ .nil
  | cons first rest ih =>
    rename_i here there _ _
    obtain ⟨number, u⟩ := here
    obtain ⟨number', v⟩ := there
    obtain ⟨same, alike⟩ := first
    dsimp only at same alike
    subst same
    rw [Workspace.putIn, Workspace.putIn]
    by_cases before : slot < number
    · rw [if_pos before, if_pos before]
      exact .cons ⟨rfl, new⟩ (.cons ⟨rfl, alike⟩ rest)
    · rw [if_neg before, if_neg before]
      exact .cons ⟨rfl, alike⟩ ih

variable [Allocator σ α] [LawfulAllocator σ α] [Allocator τ α] [LawfulAllocator τ α]

/-- Both workspaces are sound and their slots hold peers. The allocators may differ in every
way. -/
structure Peers (workspace : Workspace σ α) (other : Workspace τ α) : Prop where
  sound : workspace.Sound
  sound' : other.Sound
  slots : SlotPeers workspace.slots other.slots

omit [LawfulAllocator τ α] [Allocator τ α] in
theorem Becomes.sound {workspace workspace' : Workspace σ α} {limit : Nat}
    {given taken : Multiset Nat} (becomes : workspace.Becomes limit given workspace' taken) :
    workspace'.Sound :=
  ⟨becomes.extended.sound, becomes.valid⟩

omit [LawfulAllocator τ α] [Allocator τ α] in
/-- A step that gives storage back, or takes some, keeps the allocator sound. -/
theorem Sound.withDepot {workspace : Workspace σ α} (sound : workspace.Sound) {ρ : Type}
    {step : Depot.Step σ ρ} {limit : Nat} {before : Multiset Nat} {after : ρ → Multiset Nat}
    {post : ρ → Prop} (ensured : Depot.Ensures limit before step after post) :
    (workspace.withDepot step).2.Sound :=
  ⟨(ensured workspace.depot sound.allocator).1.sound, sound.valid⟩

namespace Peers

variable {workspace : Workspace σ α} {other : Workspace τ α}

theorem get? (peers : workspace.Peers other) (slot : Nat) :
    Option.Rel Sequence.Peers (workspace.get? slot) (other.get? slot) := by
  rw [get?_eq_takeOut, get?_eq_takeOut]
  exact (peers.slots.takeOut slot).1

theorem drop (peers : workspace.Peers other) (slot : Nat) :
    (workspace.drop slot).Peers (other.drop slot) where
  sound := (becomes_drop 0 peers.sound slot).sound
  sound' := (becomes_drop 0 peers.sound' slot).sound
  slots := (peers.slots.takeOut slot).2

theorem put (peers : workspace.Peers other) (slot : Nat) {s t : Sequence α} (new : s.Peers t) :
    (workspace.put slot s).Peers (other.put slot t) where
  sound := (becomes_put 0 peers.sound new.valid slot).sound
  sound' := (becomes_put 0 peers.sound' new.valid' slot).sound
  slots := (peers.slots.takeOut slot).2.putIn slot new

theorem close (peers : workspace.Peers other) : workspace.close.Peers other.close where
  sound :=
    have closed : workspace.Becomes 0 0 workspace.close 0 := becomes_close peers.sound
    closed.sound
  sound' :=
    have closed : other.Becomes 0 0 other.close 0 := becomes_close peers.sound'
    closed.sound
  slots := .nil

/-- A step whose results are alike keeps the workspaces alike. -/
theorem withDepot (peers : workspace.Peers other) {ρ ρ' : Type} {step : Depot.Step σ ρ}
    {step' : Depot.Step τ ρ'} {limit limit' : Nat} {before before' : Multiset Nat}
    {after : ρ → Multiset Nat} {after' : ρ' → Multiset Nat} {post : ρ → Prop} {post' : ρ' → Prop}
    (ensured : Depot.Ensures limit before step after post)
    (ensured' : Depot.Ensures limit' before' step' after' post') :
    (workspace.withDepot step).2.Peers (other.withDepot step').2 :=
  ⟨peers.sound.withDepot ensured, peers.sound'.withDepot ensured', peers.slots⟩

theorem edit [BEq α] [Inhabited α] (peers : workspace.Peers other) (slot : Nat) (edit : Edit α) :
    (workspace.edit slot edit).1 = (other.edit slot edit).1 ∧
      (workspace.edit slot edit).2.Peers (other.edit slot edit).2 := by
  obtain ⟨found, left⟩ := peers.slots.takeOut slot
  obtain ⟨old, rest⟩ := peers.sound.of_takeOut slot
  obtain ⟨old', rest'⟩ := peers.sound'.of_takeOut slot
  obtain ⟨sound, sound', -⟩ := peers
  obtain ⟨depot, slots⟩ := workspace
  obtain ⟨depot', slots'⟩ := other
  unfold Workspace.edit
  dsimp only at found left old old' rest rest' ⊢
  generalize Workspace.takeOut slot slots = out at found left old rest ⊢
  generalize Workspace.takeOut slot slots' = out' at found left old' rest' ⊢
  obtain ⟨here, slots⟩ := out
  obtain ⟨there, slots'⟩ := out'
  cases found with
  | none => exact ⟨rfl, ⟨sound.allocator, rest⟩, ⟨sound'.allocator, rest'⟩, left⟩
  | some alike =>
    obtain ⟨same, alike⟩ := edit.peers_apply alike sound.allocator sound'.allocator
    obtain ⟨extended, -⟩ := edit.ensures_apply (old _ rfl) depot sound.allocator
    obtain ⟨extended', -⟩ := edit.ensures_apply (old' _ rfl) depot' sound'.allocator
    exact ⟨congrArg some same, ⟨extended.sound, valid_putIn rest alike.valid slot⟩,
      ⟨extended'.sound, valid_putIn rest' alike.valid' slot⟩, left.putIn slot alike⟩

theorem copy (peers : workspace.Peers other) (slot target : Nat) :
    (workspace.copy slot target).1 = (other.copy slot target).1 ∧
      (workspace.copy slot target).2.Peers (other.copy slot target).2 := by
  have found := peers.get? slot
  unfold Workspace.copy
  generalize workspace.get? slot = here at found ⊢
  generalize other.get? slot = there at found ⊢
  cases found with
  | none => exact ⟨rfl, peers⟩
  | some alike =>
    have copied := alike.copy peers.sound.allocator peers.sound'.allocator
    exact ⟨rfl, (peers.withDepot (Sequence.ensures_copy _) (Sequence.ensures_copy _)).put target
      copied⟩

theorem drain (peers : workspace.Peers other) (slot count : Nat) :
    Option.Rel (fun left left' => left.1 = left'.1 ∧ left.2.Peers left'.2)
        (workspace.drain slot count).1 (other.drain slot count).1 ∧
      (workspace.drain slot count).2.Peers (other.drain slot count).2 := by
  obtain ⟨found, left⟩ := peers.slots.takeOut slot
  obtain ⟨-, rest⟩ := peers.sound.of_takeOut slot
  obtain ⟨-, rest'⟩ := peers.sound'.of_takeOut slot
  obtain ⟨sound, sound', -⟩ := peers
  obtain ⟨depot, slots⟩ := workspace
  obtain ⟨depot', slots'⟩ := other
  unfold Workspace.drain
  dsimp only at found left rest rest' ⊢
  generalize Workspace.takeOut slot slots = out at found left rest ⊢
  generalize Workspace.takeOut slot slots' = out' at found left rest' ⊢
  obtain ⟨here, slots⟩ := out
  obtain ⟨there, slots'⟩ := out'
  cases found with
  | none => exact ⟨.none, ⟨sound.allocator, rest⟩, ⟨sound'.allocator, rest'⟩, left⟩
  | some alike =>
    obtain ⟨extended, -⟩ := Drain.ensures_take 0 (.ofSequence _) count depot sound.allocator
    obtain ⟨extended', -⟩ := Drain.ensures_take 0 (.ofSequence _) count depot' sound'.allocator
    exact ⟨.some ((Drain.peers_ofSequence alike).take count depot depot'),
      ⟨extended.sound, rest⟩, ⟨extended'.sound, rest'⟩, left⟩

theorem restore {ω : Type} [Source ω α] [Inhabited α] (peers : workspace.Peers other)
    (target : Nat) (source : ω) :
    ((workspace.restore target source).1, (workspace.restore target source).2.1) =
        ((other.restore target source).1, (other.restore target source).2.1) ∧
      (workspace.restore target source).2.2.Peers (other.restore target source).2.2 := by
  have restored := Snapshot.restored_restore source peers.sound.allocator peers.sound'.allocator
  have after := peers.withDepot (Snapshot.ensures_restore source) (Snapshot.ensures_restore source)
  unfold Workspace.restore
  change Snapshot.Restored (workspace.withDepot (Snapshot.restore source)).1
    (other.withDepot (Snapshot.restore source)).1 at restored
  generalize workspace.withDepot (Snapshot.restore source) = result at restored after ⊢
  generalize other.withDepot (Snapshot.restore source) = result' at restored after ⊢
  obtain ⟨⟨answer, left⟩, workspace⟩ := result
  obtain ⟨⟨answer', left'⟩, other⟩ := result'
  obtain ⟨same, alike⟩ := restored
  dsimp only at same alike after
  subst same
  cases answer <;> cases answer'
  case ok.ok => exact ⟨rfl, after.put target alike⟩
  case error.error =>
    subst alike
    exact ⟨rfl, after⟩
  all_goals exact alike.elim

end Peers

end Workspace

namespace Scene

variable [Allocator σ α] [LawfulAllocator σ α] [Allocator τ α] [LawfulAllocator τ α]

/-- The workspaces are peers, and so are the drains, one by one. -/
structure Peers (scene : Scene σ α) (other : Scene τ α) : Prop where
  workspace : scene.workspace.Peers other.workspace
  drains : List.Forall₂ Drain.Peers scene.drains other.drains

namespace Peers

variable {scene : Scene σ α} {other : Scene τ α}

theorem takeApart (peers : scene.Peers other) (slot count : Nat) :
    (scene.takeApart slot count).1 = (other.takeApart slot count).1 ∧
      (scene.takeApart slot count).2.Peers (other.takeApart slot count).2 := by
  obtain ⟨found, left⟩ := peers.workspace.drain slot count
  unfold Scene.takeApart
  generalize scene.workspace.drain slot count = result at found left ⊢
  generalize other.workspace.drain slot count = result' at found left ⊢
  obtain ⟨here, workspace⟩ := result
  obtain ⟨there, workspace'⟩ := result'
  cases found with
  | none => exact ⟨rfl, left, peers.drains⟩
  | some alike =>
    obtain ⟨same, alike⟩ := alike
    exact ⟨congrArg₂ (fun yielded remaining => some (yielded, remaining)) same alike.remaining,
      left, .cons alike peers.drains⟩

theorem goOn (peers : scene.Peers other) (place count : Nat) :
    (scene.goOn place count).1 = (other.goOn place count).1 ∧
      (scene.goOn place count).2.Peers (other.goOn place count).2 := by
  have found := Drain.rel_getElem? peers.drains place
  unfold Scene.goOn
  generalize scene.drains[place]? = here at found ⊢
  generalize other.drains[place]? = there at found ⊢
  cases found with
  | none => exact ⟨rfl, peers⟩
  | some alike =>
    obtain ⟨same, alike⟩ := alike.take count scene.workspace.depot other.workspace.depot
    exact ⟨congrArg₂ (fun yielded remaining => some (yielded, remaining)) same alike.remaining,
      peers.workspace.withDepot (Drain.ensures_take 0 _ count) (Drain.ensures_take 0 _ count),
      Drain.rel_set peers.drains place alike⟩

theorem abandon (peers : scene.Peers other) (place : Nat) :
    (scene.abandon place).Peers (other.abandon place) := by
  have found := Drain.rel_getElem? peers.drains place
  unfold Scene.abandon
  generalize scene.drains[place]? = here at found ⊢
  generalize other.drains[place]? = there at found ⊢
  cases found with
  | none => exact peers
  | some alike =>
    exact ⟨peers.workspace.withDepot (@Drain.ensures_discard _ _ _ _ 0 _)
      (@Drain.ensures_discard _ _ _ _ 0 _), Drain.rel_eraseIdx peers.drains place⟩

theorem save {ω : Type} [Sink ω α] (peers : scene.Peers other) (slot : Nat) (sink : ω) :
    (scene.save slot sink).1 = (other.save slot sink).1 ∧
      (scene.save slot sink).2.Peers (other.save slot sink).2 := by
  have found := peers.workspace.get? slot
  unfold Scene.save
  generalize scene.workspace.get? slot = here at found ⊢
  generalize other.workspace.get? slot = there at found ⊢
  cases found with
  | none => exact ⟨rfl, peers⟩
  | some alike =>
    have same := Snapshot.save_congr alike sink scene.workspace.depot other.workspace.depot
    exact ⟨congrArg some same, peers.workspace.withDepot (Snapshot.ensures_save 0 _ sink 0)
      (Snapshot.ensures_save 0 _ sink 0), peers.drains⟩

variable [BEq α] [Inhabited α]

/-- An operation answers the same on both of two peers, and leaves peers. -/
theorem perform (peers : scene.Peers other) (clear clear' : Bool) (command : Command α) :
    (scene.perform clear command).1 = (other.perform clear' command).1 ∧
      (scene.perform clear command).2.Peers (other.perform clear' command).2 := by
  have drains := peers.drains
  cases command with
  | create slot hint options =>
    refine ⟨rfl, peers.workspace.put slot ?_, drains⟩
    exact ⟨Sequence.valid_empty .., Sequence.valid_empty .., rfl, rfl, rfl, rfl, rfl⟩
  | edit slot edit =>
    obtain ⟨same, edited⟩ := peers.workspace.edit slot edit
    exact ⟨same, edited, drains⟩
  | copy slot target =>
    obtain ⟨same, copied⟩ := peers.workspace.copy slot target
    exact ⟨same, copied, drains⟩
  | drop slot => exact ⟨rfl, peers.workspace.drop slot, drains⟩
  | close => exact ⟨rfl, peers.workspace.close, drains⟩
  | takeApart slot count => exact peers.takeApart slot count
  | goOn place count => exact peers.goOn place count
  | abandon place => exact ⟨rfl, peers.abandon place⟩
  | save slot sink => exact peers.save slot sink
  | restore target source =>
    obtain ⟨same, restored⟩ := peers.workspace.restore target source
    exact ⟨same, restored, drains⟩

/-- Two runs of the same operations go side by side, whatever buffers each of them clears. -/
theorem play (peers : scene.Peers other) {script script' : List (Command α × Bool)}
    (same : script.map Prod.fst = script'.map Prod.fst) :
    List.Forall₂ (fun step step' => step.1 = step'.1 ∧ step.2.Peers step'.2)
      (Scene.play script scene) (Scene.play script' other) := by
  induction script generalizing script' scene other with
  | nil =>
    obtain rfl := List.map_eq_nil_iff.mp same.symm
    exact .nil
  | cons first rest ih =>
    obtain ⟨first', rest', rfl, command, later⟩ := List.map_eq_cons_iff.mp same.symm
    obtain ⟨command, clear⟩ := first
    obtain ⟨command', clear'⟩ := first'
    dsimp only at command
    subst command
    obtain ⟨answer, peers⟩ := peers.perform clear clear' command'
    exact .cons ⟨congrArg (Sigma.mk command') answer, peers⟩ (ih peers later.symm)

end Peers

/-- What the slots and the drains show of themselves is the same in both scenes. -/
structure SeenAlike (scene : Scene σ α) (other : Scene τ α) : Prop where
  slots : List.Forall₂ (fun slot slot' => slot.1 = slot'.1 ∧ slot.2.disposed = slot'.2.disposed ∧
    slot.2.ReadAlike slot'.2) scene.workspace.slots other.workspace.slots
  drains : List.Forall₂ (fun drain drain' => drain.remaining = drain'.remaining) scene.drains
    other.drains

theorem Peers.seenAlike {scene : Scene σ α} {other : Scene τ α} (peers : scene.Peers other) :
    scene.SeenAlike other where
  slots := peers.workspace.slots.imp fun _ _ ⟨number, alike⟩ =>
    ⟨number, alike.disposed, alike.readAlike⟩
  drains := peers.drains.imp fun _ _ alike => alike.remaining

/-- Two runs of the same operations cannot be told apart by any answer, nor by any reading of any
sequence after any step, whatever the allocators do, whatever they have kept from earlier users,
and whichever buffers they are told to clear. -/
theorem play_indistinguishable [BEq α] [Inhabited α] {depot : Depot σ} {depot' : Depot τ}
    (sound : LawfulAllocator.Sound depot.allocator)
    (sound' : LawfulAllocator.Sound depot'.allocator) {script script' : List (Command α × Bool)}
    (same : script.map Prod.fst = script'.map Prod.fst) :
    List.Forall₂ (fun step step' => step.1 = step'.1 ∧ step.2.SeenAlike step'.2)
      (play script ⟨{ depot }, []⟩) (play script' ⟨{ depot := depot' }, []⟩) := by
  have start : Peers ⟨{ depot }, []⟩ ⟨{ depot := depot' }, []⟩ :=
    ⟨⟨⟨sound, fun _ => nofun⟩, ⟨sound', fun _ => nofun⟩, .nil⟩, .nil⟩
  exact (start.play same).imp fun _ _ ⟨answer, peers⟩ => ⟨answer, peers.seenAlike⟩

/-- Four operations, the buffers of the first sequence cleared or not. -/
def sample (clear : Bool) : List (Command Nat × Bool) :=
  [(.create 0 4 default, clear), (.edit 0 (.extend [1, 2, 3]), true), (.copy 0 1, true),
    (.takeApart 0 2, true)]

/-- A pool that has kept a buffer with the elements of its last owner. -/
def stale : Pool Nat := Pool.release ⟨#[7, 7, 7], 4⟩ false { limit := 2 }

theorem sample_indistinguishable :
    LawfulAllocator.Sound (Strategy.pool stale) ∧ stale.retained = 1 ∧
      (sample true).map Prod.fst = (sample false).map Prod.fst ∧
      List.Forall₂ (fun step step' => step.1 = step'.1 ∧ step.2.SeenAlike step'.2)
        (play (sample true) ⟨{ depot := { allocator := Strategy.heap ⟨⟩ } }, []⟩)
        (play (sample false) ⟨{ depot := { allocator := Strategy.pool stale } }, []⟩) := by
  have sorted : stale.Sorted := Pool.sorted_release _ false (Pool.sorted_empty 2)
  exact ⟨sorted, by decide, rfl, play_indistinguishable trivial sorted rfl⟩

end Scene

end Segmented
