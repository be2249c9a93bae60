import Segmented.Edit

/-! Calls on a sequence in place, where a stop keeps whatever has been done before it. Each call
checks as it goes; nothing here says that it checks before it acts. -/

namespace Segmented

variable {σ α ρ τ : Type}

/-- A call on a sequence in place. It may stop at any point; what it has done to the sequence and to
the depot by then stays done. -/
abbrev Attempt (σ α ρ : Type) := ExceptT Failure (StateT (Sequence α) (Depot.Step σ)) ρ

namespace Attempt

/-- What a call answers or why it stops, and the sequence that it leaves. -/
def outcome (attempt : Attempt σ α ρ) (s : Sequence α) :
    Depot.Step σ (Except Failure ρ × Sequence α) :=
  attempt.run.run s

/-- Lets the sequence go through a step that has an answer. -/
def take (step : Sequence α → Depot.Step σ (ρ × Sequence α)) : Attempt σ α ρ :=
  ExceptT.mk fun s => do
    let (answer, s) ← step s
    return (.ok answer, s)

/-- Lets the sequence go through a step. -/
def act (step : Sequence α → Depot.Step σ (Sequence α)) : Attempt σ α Unit :=
  take fun s => do return ((), ← step s)

/-- Changes the sequence without the depot. -/
def change (step : Sequence α → Sequence α) : Attempt σ α Unit :=
  take fun s => pure ((), step s)

def assertLive : Attempt σ α Unit := do
  if (← get).disposed then throw (.misuse .disposed)

def require (check : Except Error Unit) : Attempt σ α Unit :=
  match check with
  | .ok () => return
  | .error error => throw (.error error)

/-- The element that has been found; `missing` is for none. -/
def demand (found : Attempt σ α (Option α)) (missing : Attempt σ α α) : Attempt σ α α := do
  match ← found with
  | some x => return x
  | none => missing

/-- The attempt stops before it has done anything. -/
def Stops (attempt : Attempt σ α ρ) (s : Sequence α) (failure : Failure) : Prop :=
  ∀ depot, (attempt.outcome s).run depot = ((.error failure, s), depot)

/-- The attempt has an answer and does nothing. -/
def Passes (attempt : Attempt σ α ρ) (s : Sequence α) (answer : ρ) : Prop :=
  ∀ depot, (attempt.outcome s).run depot = ((.ok answer, s), depot)

theorem run_outcome_bind (first : Attempt σ α ρ) (next : ρ → Attempt σ α τ) (s : Sequence α)
    (depot : Depot σ) :
    ((first >>= next).outcome s).run depot =
      match (first.outcome s).run depot with
      | ((.ok answer, s), depot) => ((next answer).outcome s).run depot
      | ((.error failure, s), depot) => ((.error failure, s), depot) := by
  unfold outcome
  change (StateT.run (ExceptT.run _ >>= ExceptT.bindCont next) s).run depot = _
  rw [StateT.run_bind, StateT.run_bind]
  generalize (StateT.run (ExceptT.run first) s).run depot = after
  obtain ⟨⟨answer, s⟩, depot⟩ := after
  cases answer <;> rfl

section

variable {first : Attempt σ α ρ} {next : ρ → Attempt σ α τ} {s : Sequence α} {answer : ρ}
  {failure : Failure}

theorem Stops.bind (stops : first.Stops s failure) : (first >>= next).Stops s failure := by
  intro depot
  rw [run_outcome_bind, stops depot]

theorem Passes.run (passes : first.Passes s answer) (depot : Depot σ) :
    ((first >>= next).outcome s).run depot = ((next answer).outcome s).run depot := by
  rw [run_outcome_bind, passes depot]

theorem Passes.stops (passes : first.Passes s answer) (stops : (next answer).Stops s failure) :
    (first >>= next).Stops s failure := by
  intro depot
  rw [passes.run, stops depot]

theorem Passes.bind {last : τ} (passes : first.Passes s answer)
    (passes' : (next answer).Passes s last) : (first >>= next).Passes s last := by
  intro depot
  rw [passes.run, passes' depot]

theorem passes_pure (answer : ρ) : (pure answer : Attempt σ α ρ).Passes s answer := fun _ => rfl

theorem passes_get : (get : Attempt σ α (Sequence α)).Passes s s := fun _ => rfl

theorem stops_throw (failure : Failure) : (throw failure : Attempt σ α ρ).Stops s failure :=
  fun _ => rfl

theorem run_take (step : Sequence α → Depot.Step σ (ρ × Sequence α)) (depot : Depot σ) :
    ((take step).outcome s).run depot =
      ((.ok ((step s).run depot).1.1, ((step s).run depot).1.2), ((step s).run depot).2) := rfl

theorem passes_take {step : Sequence α → Depot.Step σ (ρ × Sequence α)}
    (idle : step s = pure (answer, s)) : (take step).Passes s answer := by
  intro depot
  rw [run_take, idle]
  rfl

theorem passes_require {check : Except Error Unit} (passed : check = .ok ()) :
    (require check : Attempt σ α Unit).Passes s () := by
  subst passed
  exact passes_pure ()

theorem stops_require {check : Except Error Unit} {error : Error} (failed : check = .error error) :
    (require check : Attempt σ α Unit).Stops s (.error error) := by
  subst failed
  exact stops_throw _

theorem stops_assertLive (disposed : s.disposed = true) :
    (assertLive : Attempt σ α Unit).Stops s (.misuse .disposed) := by
  apply passes_get.stops
  rw [disposed]
  exact stops_throw _

theorem passes_assertLive (live : s.disposed = false) :
    (assertLive : Attempt σ α Unit).Passes s () := by
  apply passes_get.bind
  rw [live]
  exact passes_pure ()

end

/-! ### The calls -/

variable [Allocator σ α]

def push (x : α) : Attempt σ α Unit := do
  assertLive
  act (·.push x)

def pop : Attempt σ α (Option α) := do
  assertLive
  take Sequence.pop

def removeLast : Attempt σ α α := demand pop (throw (.error .empty))

def insert (index : Nat) (x : α) : Attempt σ α Unit := do
  assertLive
  let length := (← get).length
  if length < index then
    throw (.error (.indexOutOfRange index length))
  else if index = length then
    push x
  else
    act (·.insert index x)

def removeAt (index : Nat) : Attempt σ α α := do
  assertLive
  let length := (← get).length
  if length ≤ index then
    throw (.error (.indexOutOfRange index length))
  else
    demand (take (·.removeAt index)) (throw (.error (.indexOutOfRange index length)))

omit [Allocator σ α] in
/-- Stores `x` at a position, if there is one. -/
def replace (index : Nat) (x : α) : Attempt σ α (Option α) := do
  match (← get).get? index with
  | none => return none
  | some old =>
    change (·.modify index fun _ => x)
    return some old

omit [Allocator σ α] in
def set (index : Nat) (x : α) : Attempt σ α α := do
  assertLive
  demand (replace index x) do throw (.error (.indexOutOfRange index (← get).length))

omit [Allocator σ α] in
def assign (index : Nat) (x : α) : Attempt σ α Unit := do
  let _ ← demand (replace index x) do throw (.misuse (.outOfBounds index (← get).length))
  return ()

omit [Allocator σ α] in
def exchange (first second : Nat) : Attempt σ α Unit := do
  let length := (← get).length
  if first < length ∧ second < length then
    change (·.exchange first second)
  else
    throw (.misuse (.exchange first second length))

def ensure (length : Nat) (x : α) : Attempt σ α Unit := do
  assertLive
  act (·.ensure length x)

def truncate (length : Nat) : Attempt σ α Unit := do
  assertLive
  act (·.truncate length)

def resize (length : Nat) (x : α) : Attempt σ α Unit := do
  if (← get).length < length then
    ensure length x
  else
    truncate length

def placeAt [Inhabited α] (index : Nat) (x : α) : Attempt σ α Unit := do
  assertLive
  if (← get).length ≤ index then
    ensure (Sequence.countTo index) default
  let _ ← replace index x

omit [Allocator σ α] in
def copyFrom (source : Array α) (start index count : Nat) : Attempt σ α Unit := do
  assertLive
  require (checkSpan "src_index" start count source.size)
  require (checkSpan "dest_index" index count (← get).length)
  change (·.copyFrom source start index count)

/-- Removes the first element equal to `x`; an error on the way counts as none. -/
def remove [BEq α] (x : α) : Attempt σ α Bool := do
  assertLive
  match (← get).indexOf? x with
  | none => return false
  | some index =>
    tryCatch (do let _ ← removeAt index; return true) fun
      | .error _ => return false
      | .misuse misuse => throw (.misuse misuse)

def removeIf (test : Test α) : Attempt σ α (Nat × Array α) := do
  assertLive
  take fun s => do
    let (count, asked, s) ← s.removeIf test.ask #[]
    return ((count, asked), s)

def retain (test : Test α) : Attempt σ α (Array α) := do
  assertLive
  take fun s => do
    let (_, asked, s) ← s.retain test.ask #[]
    return (asked, s)

def removeAll [BEq α] (x : α) : Attempt σ α Nat := do
  assertLive
  take (·.removeAll x)

end Attempt

namespace Edit

variable [Allocator σ α] [BEq α] [Inhabited α]

open Attempt (assertLive act change)

/-- The call as it is made on a sequence in place. -/
def call : Edit α → Attempt σ α (Reply α)
  | push x => do Attempt.push x; return .done
  | extend xs => do xs.forM Attempt.push; return .done
  | pop => return .option (← Attempt.pop)
  | removeLast => return .element (← Attempt.removeLast)
  | insert index x => do Attempt.insert index x; return .done
  | removeAt index => return .element (← Attempt.removeAt index)
  | set index x => return .element (← Attempt.set index x)
  | replace index x => return .option (← Attempt.replace index x)
  | replaceLast x => do
    let old := (← get).last?
    act (·.updateTail fun buffer => pure (buffer.replaceLast x))
    return .option old
  | assign index x => do Attempt.assign index x; return .done
  | replaceFlat index x => do
    if (← get).isFlat then
      return .option (← Attempt.replace index x)
    else
      return .deep
  | exchange first second => do Attempt.exchange first second; return .done
  | clear => do act Sequence.clear; return .done
  | dispose => do act Sequence.dispose; return .done
  | reverse => do assertLive; change Sequence.reverse; return .done
  | sort order => do assertLive; act (·.sort order); return .done
  | sortUnstable order => do assertLive; act (·.sortUnstable order); return .done
  | ensure length x => do Attempt.ensure length x; return .done
  | resize length x => do Attempt.resize length x; return .done
  | truncate length => do Attempt.truncate length; return .done
  | placeAt index x => do Attempt.placeAt index x; return .done
  | copyFrom source start index count => do
    Attempt.copyFrom source start index count
    return .done
  | remove x => return .flag (← Attempt.remove x)
  | removeAll x => return .count (← Attempt.removeAll x)
  | removeIf test => do
    let (count, asked) ← Attempt.removeIf test
    return .removed count asked
  | retain test => return .retained (← Attempt.retain test)

end Edit

end Segmented
