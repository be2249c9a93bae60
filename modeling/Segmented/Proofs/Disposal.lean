import Segmented.Proofs.Peers
import Segmented.Proofs.Refinement
import Segmented.Proofs.Refusal
import Segmented.Traversal.Drain

/-! The end of a sequence. Disposal gives back every segment once and leaves the same remains of
every sequence; from then on a call either panics or has nothing to do, and neither the remains nor
the allocator ever change again. -/

namespace Segmented

variable {σ τ ω α : Type}

/-- What disposal leaves of a sequence: neither tree nor tail nor elements, and the last version. -/
def Sequence.remains (s : Sequence α) : Sequence α where
  options := s.options
  firstCapacity := s.firstCapacity
  version := 65535
  disposed := true

namespace Edit

/-- What each call answers on the remains of a sequence: it panics, or it has nothing to do. -/
def afterlife : Edit α → Except Failure (Reply α)
  | replace .. | replaceLast _ | replaceFlat .. => .ok (.option none)
  | clear | dispose | extend [] => .ok .done
  | assign index _ => .error (.misuse (.outOfBounds index 0))
  | exchange first second => .error (.misuse (.exchange first second 0))
  | _ => .error (.misuse .disposed)

theorem afterlife_of_needsLive {edit : Edit α} (needsLive : edit.needsLive = true) :
    edit.afterlife = .error (.misuse .disposed) := by
  cases edit with
  | extend xs =>
    cases xs with
    | nil => cases needsLive
    | cons x rest => rfl
  | replace | replaceLast | assign | replaceFlat | exchange | clear | dispose => cases needsLive
  | _ => rfl

/-- No call on the remains fails with an error that could be handled. -/
theorem afterlife_panics_or_idles (edit : Edit α) :
    (∃ misuse, edit.afterlife = .error (.misuse misuse)) ∨ edit.afterlife = .ok .done ∨
      edit.afterlife = .ok (.option none) := by
  cases edit with
  | replace | replaceLast | replaceFlat => exact .inr (.inr rfl)
  | clear | dispose => exact .inr (.inl rfl)
  | extend xs =>
    cases xs with
    | nil => exact .inr (.inl rfl)
    | cons x rest => exact .inl ⟨_, rfl⟩
  | _ => exact .inl ⟨_, rfl⟩

variable [Allocator σ α] [BEq α] [Inhabited α]

/-- One call on the remains of a sequence changes neither them nor the depot. -/
theorem run_call_remains (edit : Edit α) (s : Sequence α) (depot : Depot σ) :
    (edit.call.outcome s.remains).run depot = ((edit.afterlife, s.remains), depot) := by
  by_cases needsLive : edit.needsLive = true
  · rw [afterlife_of_needsLive needsLive]
    exact stops_of_disposed rfl needsLive depot
  · cases edit with
    | extend xs =>
      cases xs with
      | nil => rfl
      | cons x rest => exact absurd rfl needsLive
    | replace | replaceLast | assign | replaceFlat | exchange | clear | dispose => rfl
    | _ => exact absurd rfl needsLive

/-- A run of calls in place: what each answers, and the sequence after the last. -/
def attempts : List (Edit α) → Sequence α →
    Depot.Step σ (List (Except Failure (Reply α)) × Sequence α)
  | [], s => pure ([], s)
  | edit :: rest, s => do
    let (answer, s) ← edit.call.outcome s
    let (answers, s) ← attempts rest s
    return (answer :: answers, s)

theorem run_attempts_remains (edits : List (Edit α)) (s : Sequence α) (depot : Depot σ) :
    (attempts edits s.remains).run depot = ((edits.map afterlife, s.remains), depot) := by
  induction edits with
  | nil => rfl
  | cons edit rest ih =>
    rw [attempts, StateT.run_bind, run_call_remains]
    dsimp only
    change (attempts rest s.remains >>= _).run depot = _
    rw [StateT.run_bind, ih]
    rfl

end Edit

/-! ### Disposal itself -/

/-- The record of a buffer that goes back with what it holds. -/
def Call.returned (clear : Bool) (buffer : Buffer α) : Call :=
  .release buffer.capacity buffer.size clear

variable [Allocator σ α]

theorem calls_forM_release (clear : Bool) (buffers : List (Buffer α)) (depot : Depot σ) :
    ((buffers.forM fun buffer => Depot.release buffer clear).run depot).2.calls =
      depot.calls ++ (buffers.map (Call.returned clear)).toArray := by
  induction buffers generalizing depot with
  | nil => exact Array.append_empty.symm
  | cons buffer rest ih =>
    change ((Depot.release buffer clear >>= fun _ => rest.forM _).run depot).2.calls = _
    refine (ih _).trans ?_
    rw [List.map_cons]
    change depot.calls.push (Call.returned clear buffer) ++ _ = _
    simp

theorem forM_reclaim_of_stored (clear : Bool) {buffers : List (Buffer α)}
    (stored : ∀ buffer ∈ buffers, 0 < buffer.capacity) :
    (buffers.forM fun buffer => Depot.reclaim buffer clear : Depot.Step σ Unit) =
      buffers.forM fun buffer => Depot.release buffer clear := by
  induction buffers with
  | nil => rfl
  | cons buffer rest ih =>
    have first : (Depot.reclaim buffer clear : Depot.Step σ Unit) = Depot.release buffer clear :=
      if_pos (stored buffer (by simp))
    have later := ih fun other member => stored other (by simp [member])
    change (Depot.reclaim buffer clear >>= fun _ => rest.forM _) = _
    rw [first, later]
    rfl

theorem calls_forM_reclaim (clear : Bool) {buffers : List (Buffer α)}
    (stored : ∀ buffer ∈ buffers, 0 < buffer.capacity) (depot : Depot σ) :
    ((buffers.forM fun buffer => Depot.reclaim buffer clear).run depot).2.calls =
      depot.calls ++ (buffers.map (Call.returned clear)).toArray := by
  rw [forM_reclaim_of_stored clear stored, calls_forM_release]

namespace Sequence

variable {s : Sequence α}

theorem Valid.stored (valid : s.Valid) : ∀ buffer ∈ s.segments.toList, 0 < buffer.capacity := by
  intro buffer member
  have filled := valid.filled_segments buffer member
  exact Nat.lt_of_lt_of_le filled.positive filled.fits

theorem Valid.run_clear (valid : s.Valid) (depot : Depot σ) :
    (∃ version, ((s.clear).run depot).1 =
      { options := s.options, firstCapacity := s.firstCapacity, version, disposed := s.disposed }) ∧
    ((s.clear).run depot).2.calls = depot.calls ++
      (s.segments.toList.map (Call.returned s.options.clearsOnReturn)).toArray := by
  have returned := calls_forM_reclaim s.options.clearsOnReturn valid.stored depot
  obtain ⟨root, length, tail, version, options, firstCapacity, disposed⟩ := s
  cases valid with
  | empty root length tail =>
    cases root
    cases length
    cases tail
    exact ⟨⟨version, rfl⟩, Array.append_empty.symm⟩
  | tree root packed =>
    cases root
    rename_i level tree front last _ _
    have cleared : (clear ⟨some ⟨level, tree⟩, length, tail, version, options, firstCapacity,
        disposed⟩ : Depot.Step σ (Sequence α)) = do
          tree.segments.toList.forM fun buffer => Depot.reclaim buffer options.clearsOnReturn
          return { options, firstCapacity, version := version + 1, disposed } := by
      unfold clear
      rw [Option.isNone_some, Bool.and_false, ← List.forM_toArray]
      rfl
    rw [cleared]
    exact ⟨⟨version + 1, rfl⟩, returned⟩

/-- Disposal of a live sequence gives back every segment once, in order, and leaves the remains. -/
theorem Valid.run_dispose (valid : s.Valid) (live : s.disposed = false) (depot : Depot σ) :
    ((s.dispose).run depot).1 = s.remains ∧
      ((s.dispose).run depot).2.calls = depot.calls ++
        (s.segments.toList.map (Call.returned s.options.clearsOnReturn)).toArray := by
  obtain ⟨⟨version, left⟩, calls⟩ := valid.run_clear depot
  have step : (s.dispose : Depot.Step σ (Sequence α)) = do
      let s ← s.clear
      Depot.notify .disposed
      return { s with version := 65535, disposed := true } := by
    unfold dispose
    rw [live]
    rfl
  rw [step]
  constructor
  · change { ((s.clear).run depot).1 with version := 65535, disposed := true } = s.remains
    rw [left]
    rfl
  · exact calls

theorem valid_remains (s : Sequence α) : s.remains.Valid := .empty rfl rfl rfl

omit [Allocator σ α] in
/-- Nothing can be read of the remains, no search asks its test, and no cursor finds an element. -/
structure Blank (s : Sequence α) : Prop where
  reads : s.Reads []
  segments : s.segments = #[]
  flat? : s.flat? = some #[]
  find {S : Type} (test : α → StateM S Bool) (start : Nat) : s.find test start = pure none
  findLast {S : Type} (test : α → StateM S Bool) : s.findLast test = pure none
  advance : (s.cursor.advance s).1 = .ok none

theorem blank_remains (s : Sequence α) : s.remains.Blank where
  reads := s.valid_remains.reads
  segments := rfl
  flat? := rfl
  find test start := by
    unfold find
    split <;> rfl
  findLast test := rfl
  advance := rfl

/-- What only takes from the remains, be it the end of the sequence itself, a copy, a drain or a
snapshot, makes no call on the allocator. -/
structure Untouched (s : Sequence α) (depot : Depot τ) [Allocator τ α] : Prop where
  discard : (s.discard).run depot = ((), depot)
  copy : ((s.copy).run depot).2 = depot
  drain (count : Nat) :
    ((Drain.ofSequence s).take count).run depot = (([], Drain.ofSequence s), depot)
  abandon : ((Drain.ofSequence s).discard).run depot = ((), depot)
  save {ω : Type} [Sink ω α] (sink : ω) :
    ((Snapshot.save s sink).run depot).2.calls = depot.calls ∧
      ((Snapshot.save s sink).run depot).2.allocator = depot.allocator

theorem untouched_remains [Allocator τ α] (s : Sequence α) (depot : Depot τ) :
    s.remains.Untouched depot where
  discard := rfl
  copy := rfl
  drain count := by cases count <;> rfl
  abandon := rfl
  save sink := by
    unfold Snapshot.save
    split <;> exact ⟨rfl, rfl⟩

variable [LawfulAllocator σ α] [BEq α] [Inhabited α]

omit [LawfulAllocator σ α] in
theorem run_call_dispose (s : Sequence α) (depot : Depot σ) :
    (Edit.dispose.call.outcome s).run depot =
      ((.ok .done, ((s.dispose).run depot).1), ((s.dispose).run depot).2) := rfl

omit [LawfulAllocator σ α] in
/-- Every sequence that public operations lead to is live, or the remains of one. -/
theorem Reachable.eq_remains (reachable : s.Reachable) (disposed : s.disposed = true) :
    s = s.remains := by
  induction reachable with
  | withCapacity hint options => cases disposed
  | copy depot sound =>
    rw [(ensures_copy _ depot sound).2.disposed] at disposed
    cases disposed
  | restore source depot sound restored =>
    obtain ⟨metadata, options, out⟩ := Snapshot.exists_laidOut sound restored
    rw [out.live] at disposed
    cases disposed
  | edit edit depot sound earlier ih =>
    -- The remains stay the remains, and only disposal makes any of a live sequence.
    rename_i s
    have valid := earlier.valid
    by_cases dead : s.disposed = true
    · have idle := Edit.run_call_remains edit s depot
      rw [← ih dead, edit.run_call valid sound] at idle
      rw [idle]
      exact ih dead
    · have live := Bool.eq_false_iff.mpr dead
      by_cases ends : edit = .dispose
      · subst ends
        rw [← Edit.run_call valid .dispose sound, run_call_dispose, (valid.run_dispose live depot).1]
        rfl
      · rw [edit.disposed_apply valid ends depot sound, live] at disposed
        cases disposed

omit [LawfulAllocator σ α] in
theorem Reachable.run_dispose (reachable : s.Reachable) (depot : Depot σ) :
    ((s.dispose).run depot).1 = s.remains ∧
      ((s.dispose).run depot).2.calls = depot.calls ++
        (s.segments.toList.map (Call.returned s.options.clearsOnReturn)).toArray := by
  by_cases dead : s.disposed = true
  · rw [reachable.eq_remains dead]
    exact ⟨rfl, Array.append_empty.symm⟩
  · exact reachable.valid.run_dispose (Bool.eq_false_iff.mpr dead) depot

/-- Disposal is final, whatever operations a sequence comes from. It gives back every segment once,
or nothing if it is repeated, and leaves the remains; after any run of calls these are the same and
so is the whole depot, each call has panicked or had nothing to do, nothing can be read, and
whatever takes from the remains makes no call on the allocator. -/
theorem Reachable.disposal_is_final (reachable : s.Reachable) (depot : Depot σ)
    (sound : LawfulAllocator.Sound depot.allocator) :
    let after := (Edit.dispose.call.outcome s).run depot
    after.1 = (.ok .done, s.remains) ∧
    after = ((Edit.dispose.apply s).run depot) ∧
    after.2.calls = depot.calls ++
      (s.segments.toList.map (Call.returned s.options.clearsOnReturn)).toArray ∧
    (s.disposed = true → s = s.remains ∧ after.2 = depot) ∧
    (∀ {τ : Type} [Allocator τ α] (edits : List (Edit α)) (later : Depot τ),
      (Edit.attempts edits s.remains).run later = ((edits.map Edit.afterlife, s.remains), later)) ∧
    (∀ edit : Edit α, (∃ misuse, edit.afterlife = .error (.misuse misuse)) ∨
      edit.afterlife = .ok .done ∨ edit.afterlife = .ok (.option none)) ∧
    (∀ edit ∈ [Edit.clear, .extend [], .dispose], (edit : Edit α).afterlife = .ok .done) ∧
    s.remains.Blank ∧
    ∀ {τ : Type} [Allocator τ α] (later : Depot τ), s.remains.Untouched later := by
  intro after
  have valid := reachable.valid
  have ended := reachable.run_dispose depot
  refine ⟨?_, Edit.run_call valid .dispose sound, ended.2, ?_, ?_, Edit.afterlife_panics_or_idles,
    ?_, s.blank_remains, s.untouched_remains⟩
  · rw [← ended.1]
    rfl
  · intro dead
    have same := reachable.eq_remains dead
    refine ⟨same, ?_⟩
    have idle := Edit.run_call_remains .dispose s depot
    rw [← same] at idle
    exact congrArg Prod.snd idle
  · intro τ _ edits later
    exact Edit.run_attempts_remains edits s later
  · simp [Edit.afterlife]

/-- Three elements go back in one buffer, and nothing happens after that. -/
theorem disposal_of_three_is_final :
    let s : Sequence Nat := onHeap [.extend [1, 2, 3]]
    let after := (Edit.dispose.call.outcome s).run ({ allocator := ⟨⟩ } : Depot (Heap Nat))
    after.1.2 = s.remains ∧ after.2.calls = #[.release 4 3 true] ∧
    (Edit.attempts [.push 4, .extend [], .clear, .dispose, .exchange 0 0] s.remains).run after.2 =
      (([.error (.misuse .disposed), .ok .done, .ok .done, .ok .done,
        .error (.misuse (.exchange 0 0 0))], s.remains), after.2) := by
  intro s after
  have reachable : s.Reachable := reachable_onHeap _
  obtain ⟨left, -, calls, -, later, -⟩ :=
    reachable.disposal_is_final ({ allocator := ⟨⟩ } : Depot (Heap Nat)) trivial
  have released : (s.segments.toList.map (Call.returned s.options.clearsOnReturn)).toArray =
      #[.release 4 3 true] := by decide +kernel
  refine ⟨?_, ?_, later _ after.2⟩
  · rw [left]
  · rw [calls, released]
    exact Array.empty_append

end Sequence

end Segmented
