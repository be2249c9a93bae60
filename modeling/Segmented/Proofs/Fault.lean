import Segmented.Proofs.Versions

/-! Steps that would stop the program: a number that no machine word can hold, a position outside a
row, an internal error that is taken for impossible. A checked step makes each of these checks
where it would be made, and agrees with a plain step if none of them ever fails. -/

namespace Segmented

/-- A stop that no call announces. -/
inductive Fault where
  /-- A difference below zero. -/
  | underflow (minuend subtrahend : Nat)
  /-- A sum or a product that is too large for its word. -/
  | overflow (value : Nat)
  /-- A shift beyond the width of a word, or one that loses bits. -/
  | shift (value distance : Nat)
  /-- A position or the end of a range outside a row of the given length. -/
  | outside (index length : Nat)
  /-- An error where there must be none. -/
  | breach (error : Error)
  /-- A loop that no longer comes closer to its end. -/
  | stalled
  /-- A sort by an order that is none. -/
  | order
  deriving DecidableEq, Repr

/-! ### Words and rows -/

namespace Word

/-- The sum of two words of so many bits. -/
def add (bits a b : Nat) : Except Fault Nat :=
  if a + b < 2 ^ bits then .ok (a + b) else .error (.overflow (a + b))

def mul (bits a b : Nat) : Except Fault Nat :=
  if a * b < 2 ^ bits then .ok (a * b) else .error (.overflow (a * b))

def sub (a b : Nat) : Except Fault Nat :=
  if b ≤ a then .ok (a - b) else .error (.underflow a b)

/-- A word of 64 bits moved up by so many places. -/
def shiftLeft (a distance : Nat) : Except Fault Nat :=
  if distance < 64 ∧ a <<< distance < 2 ^ 64 then .ok (a <<< distance)
  else .error (.shift a distance)

variable {bits a b distance : Nat}

theorem add_eq (small : a + b < 2 ^ bits) : add bits a b = .ok (a + b) := if_pos small

theorem mul_eq (small : a * b < 2 ^ bits) : mul bits a b = .ok (a * b) := if_pos small

theorem sub_eq (least : b ≤ a) : sub a b = .ok (a - b) := if_pos least

theorem shiftLeft_eq (short : distance < 64) (small : a * 2 ^ distance < 2 ^ 64) :
    shiftLeft a distance = .ok (a * 2 ^ distance) := by
  rw [← Nat.shiftLeft_eq] at small ⊢
  exact if_pos ⟨short, small⟩

end Word

namespace Row

variable {τ : Type}

/-- The item at a position that has to exist. -/
def read (row : Array τ) (index : Nat) : Except Fault τ :=
  match row[index]? with
  | some item => .ok item
  | none => .error (.outside index row.size)

/-- The items from `start` below `stop`, which have to be a range of the row. -/
def slice (row : Array τ) (start stop : Nat) : Except Fault (Array τ) :=
  if start ≤ stop ∧ stop ≤ row.size then .ok (row.extract start stop)
  else .error (.outside (max start stop) row.size)

/-- The row without the item at a position that has to exist. -/
def erase (row : Array τ) (index : Nat) : Except Fault (Array τ) :=
  if index < row.size then .ok (row.eraseIdxIfInBounds index)
  else .error (.outside index row.size)

/-- The row with the items at two positions exchanged, which have to exist. -/
def swap (row : Array τ) (first second : Nat) : Except Fault (Array τ) :=
  if first < row.size ∧ second < row.size then .ok (row.swapIfInBounds first second)
  else .error (.outside (max first second) row.size)

variable {row : Array τ}

theorem read_eq {index : Nat} {item : τ} (here : row[index]? = some item) :
    read row index = .ok item := by
  rw [read, here]

theorem slice_eq {start stop : Nat} (order : start ≤ stop) (inside : stop ≤ row.size) :
    slice row start stop = .ok (row.extract start stop) := if_pos ⟨order, inside⟩

theorem swap_eq {first second : Nat} (inside : first < row.size) (inside' : second < row.size) :
    swap row first second = .ok (row.swap first second inside inside') := by
  rw [swap, if_pos ⟨inside, inside'⟩, Array.swapIfInBounds_def, dif_pos inside, dif_pos inside']

theorem erase_eq {index : Nat} (inside : index < row.size) :
    erase row index = .ok (row.eraseIdxIfInBounds index) := if_pos inside

end Row

/-! ### Sound depots -/

/-- The step leaves a sound depot sound, and its answer satisfies `post`. -/
def Depot.Keeps {σ α ρ : Type} [Allocator σ α] [LawfulAllocator σ α] (step : Depot.Step σ ρ)
    (post : ρ → Prop) : Prop :=
  ∀ depot : Depot σ, LawfulAllocator.Sound depot.allocator →
    LawfulAllocator.Sound (step.run depot).2.allocator ∧ post (step.run depot).1

namespace Depot.Keeps

variable {σ α ρ τ : Type} [Allocator σ α] [LawfulAllocator σ α] {step : Depot.Step σ ρ}
  {between : ρ → Prop} {post : τ → Prop}

theorem pure {x : τ} (holds : post x) : Keeps (Pure.pure x : Depot.Step σ τ) post :=
  fun _ sound => ⟨sound, holds⟩

theorem bind {next : ρ → Depot.Step σ τ} (first : Keeps step between)
    (second : ∀ x, between x → Keeps (next x) post) : Keeps (step >>= next) post := by
  intro depot sound
  obtain ⟨sound', holds⟩ := first depot sound
  exact second _ holds _ sound'

theorem map {answer : ρ → τ} (first : Keeps step between)
    (last : ∀ x, between x → post (answer x)) :
    Keeps (do let x ← step; return answer x) post :=
  first.bind fun x holds => pure (last x holds)

end Depot.Keeps

theorem Depot.Ensures.keeps {σ α ρ : Type} [Allocator σ α] [LawfulAllocator σ α] {limit : Nat}
    {before : Multiset Nat} {step : Depot.Step σ ρ} {after : ρ → Multiset Nat} {post : ρ → Prop}
    (ensured : Depot.Ensures limit before step after post) : Depot.Keeps step post :=
  fun depot sound => ⟨(ensured depot sound).1.sound, (ensured depot sound).2⟩

/-! ### Checked steps -/

/-- A check that has passed leaves its answer to what comes after it. -/
@[simp] theorem liftM_ok_bind {m : Type → Type} [Monad m] [LawfulMonad m] {ρ τ : Type} (answer : ρ)
    (next : ρ → ExceptT Fault m τ) :
    (liftM (Except.ok answer : Except Fault ρ) : ExceptT Fault m ρ) >>= next = next answer := by
  change (pure answer : ExceptT Fault m ρ) >>= next = next answer
  exact pure_bind answer next

/-- A step that may stop at a fault. -/
abbrev Checked (σ ρ : Type) := ExceptT Fault (Depot.Step σ) ρ

namespace Checked

variable {σ α ρ τ : Type}

/-- A step in which there is nothing to check. -/
def lift (step : Depot.Step σ ρ) : Checked σ ρ := ExceptT.lift step

theorem run_bind (first : Checked σ ρ) (next : ρ → Checked σ τ) (depot : Depot σ) :
    (first >>= next).run.run depot =
      match first.run.run depot with
      | (.ok answer, depot) => (next answer).run.run depot
      | (.error fault, depot) => (.error fault, depot) := by
  change StateT.run (ExceptT.run first >>= ExceptT.bindCont next) depot = _
  rw [StateT.run_bind]
  generalize StateT.run (ExceptT.run first) depot = after
  obtain ⟨answer, depot⟩ := after
  cases answer <;> rfl

variable [Allocator σ α] [LawfulAllocator σ α]

/-- On a sound depot the checked step meets no fault, and ends as the plain one does. -/
def Agrees (checked : Checked σ ρ) (plain : Depot.Step σ ρ) : Prop :=
  ∀ depot, LawfulAllocator.Sound depot.allocator →
    checked.run.run depot = (.ok (plain.run depot).1, (plain.run depot).2)

theorem agrees_pure (answer : ρ) : Agrees (pure answer : Checked σ ρ) (pure answer) :=
  fun _ _ => rfl

theorem agrees_lift (plain : Depot.Step σ ρ) : Agrees (lift plain) plain := fun _ _ => rfl

theorem agrees_check {check : Except Fault ρ} {answer : ρ} (passed : check = .ok answer) :
    Agrees (liftM check : Checked σ ρ) (pure answer) := by
  subst passed
  exact agrees_pure answer

variable {first : Checked σ ρ} {next : ρ → Checked σ τ} {step : Depot.Step σ ρ}

/-- Later checks may rely on what the plain step is known to answer. -/
theorem Agrees.bind (agrees : Agrees first step) {post : ρ → Prop} (keeps : Depot.Keeps step post)
    {later : ρ → Depot.Step σ τ}
    (agrees' : ∀ answer, post answer → Agrees (next answer) (later answer)) :
    Agrees (first >>= next) (step >>= later) := by
  intro depot sound
  obtain ⟨sound', holds⟩ := keeps depot sound
  rw [run_bind, agrees depot sound]
  exact agrees' _ holds _ sound'

/-- What follows uses no depot, and relies on nothing. -/
theorem Agrees.map (agrees : Agrees first step) {answer : ρ → τ}
    (last : ∀ x, next x = pure (answer x)) :
    Agrees (first >>= next) (do let x ← step; return answer x) := by
  intro depot sound
  rw [run_bind, agrees depot sound]
  dsimp only
  rw [last]
  rfl

/-- A step that turns out not to use the depot. -/
theorem Agrees.after {answer : ρ} (agrees : Agrees first (pure answer))
    {later : Depot.Step σ τ} (agrees' : Agrees (next answer) later) :
    Agrees (first >>= next) later := by
  intro depot sound
  rw [run_bind, agrees depot sound]
  exact agrees' depot sound

end Checked

end Segmented
