import Segmented.Proofs.Disposal
import Segmented.Proofs.Enumeration

/-! Taking a sequence apart step by step. What has been yielded, what has gone back and what is
still held after any number of steps follows from the number of steps alone. -/

namespace Segmented

variable {σ α : Type}

namespace Sequence

variable {s : Sequence α}

/-- How many segments have been taken out whole and given back after so many steps. -/
def vacated (s : Sequence α) (count : Nat) : Nat :=
  if s.length < count then s.segmentCount else (count - 1) / s.options.segmentCapacity

/-- What a drain has become after so many steps. -/
def drained (s : Sequence α) (count : Nat) : Drain α where
  buffers := s.segments.toList.drop (s.vacated count)
  taken := if s.length < count then 0 else count - s.vacated count * s.options.segmentCapacity
  remaining := s.length - count
  clearsOnReturn := s.options.clearsOnReturn

theorem vacated_of_le {count : Nat} (within : count ≤ s.length) :
    s.vacated count = (count - 1) / s.options.segmentCapacity :=
  if_neg (Nat.not_lt.mpr within)

theorem vacated_of_lt {count : Nat} (past : s.length < count) :
    s.vacated count = s.segments.toList.length :=
  (if_pos past).trans s.segmentCount_eq_length

theorem vacated_zero (s : Sequence α) : s.vacated 0 = 0 := by
  rw [vacated_of_le (Nat.zero_le _), Nat.zero_sub, Nat.zero_div]

theorem drained_zero (s : Sequence α) : s.drained 0 = .ofSequence s := by
  simp [drained, Drain.ofSequence, vacated_zero]

end Sequence

namespace Drain

variable [Allocator σ α] {clear : Bool} {remaining taken : Nat} {buffer : Buffer α}
  {rest : List (Buffer α)}

theorem advance_of_some {x : α} (here : buffer.items[taken]? = some x) :
    (advance clear remaining taken (buffer :: rest) : Depot.Step σ _) =
      pure (some x, { buffers := buffer :: rest, taken := taken + 1
                      remaining := remaining - 1, clearsOnReturn := clear }) := by
  simp only [advance, here]

theorem advance_of_none (passed : buffer.size ≤ taken) :
    (advance clear remaining taken (buffer :: rest) : Depot.Step σ _) =
      Depot.release buffer.cleared clear >>= fun _ => advance clear remaining 0 rest := by
  simp only [advance, Array.getElem?_eq_none passed]

end Drain

namespace Sequence

variable [Allocator σ α] {s : Sequence α}

/-- Gives the listed segments back with nothing in them. -/
def giveBack (s : Sequence α) (segments : List (Buffer α)) : Depot.Step σ Unit :=
  (segments.map Buffer.cleared).forM fun buffer => Depot.release buffer s.options.clearsOnReturn

theorem vacated_mul_le (s : Sequence α) {count : Nat} (within : count ≤ s.length) :
    s.vacated count * s.options.segmentCapacity ≤ count := by
  rw [vacated_of_le within]
  exact Nat.le_trans (Nat.div_mul_le_self _ _) (Nat.sub_le _ _)

/-- A step inside a segment takes the next element of it. -/
theorem Valid.next_drained_inside (valid : s.Valid) {number taken : Nat} {segment : Buffer α}
    (here : s.segments.toList[number]? = some segment) (inside : taken < segment.size) :
    Drain.advance (σ := σ) s.options.clearsOnReturn
        (s.length - (number * s.options.segmentCapacity + taken)) taken
        (s.segments.toList.drop number) =
      pure (s.toList[number * s.options.segmentCapacity + taken]?,
        s.drained (number * s.options.segmentCapacity + taken + 1)) ∧
      s.vacated (number * s.options.segmentCapacity + taken + 1) = number := by
  have positive := s.options.segmentCapacity_pos
  have size := valid.size_segment here
  have quotient : (number * s.options.segmentCapacity + taken) / s.options.segmentCapacity =
      number := by
    rw [Nat.mul_comm, Nat.mul_add_div positive, Nat.div_eq_of_lt (by omega), Nat.add_zero]
  have remainder : (number * s.options.segmentCapacity + taken) % s.options.segmentCapacity =
      taken := by
    rw [Nat.mul_comm, Nat.mul_add_mod, Nat.mod_eq_of_lt (by omega)]
  have within : number * s.options.segmentCapacity + taken + 1 ≤ s.length := by omega
  have vacated : s.vacated (number * s.options.segmentCapacity + taken + 1) = number := by
    rw [vacated_of_le within, Nat.add_sub_cancel, quotient]
  have element := valid.getElem?_eq_segment (number * s.options.segmentCapacity + taken)
  rw [quotient, remainder, here, Option.bind_some] at element
  have found : segment.items[taken]? = some segment.items[taken] := Array.getElem?_eq_getElem inside
  obtain ⟨bound, rfl⟩ := List.getElem?_eq_some_iff.mp here
  refine ⟨?_, vacated⟩
  rw [element, found, List.drop_eq_getElem_cons bound, Drain.advance_of_some found,
    ← List.drop_eq_getElem_cons bound, drained, vacated, if_neg (Nat.not_lt.mpr within)]
  congr 3
  omega

/-- A step behind the last segment finds nothing. -/
theorem Valid.next_drained_behind (valid : s.Valid) {count : Nat} (past : s.length ≤ count) :
    Drain.advance (σ := σ) s.options.clearsOnReturn (s.length - count) 0
        (s.segments.toList.drop s.segments.toList.length) =
      pure (s.toList[count]?, s.drained (count + 1)) ∧
      s.vacated (count + 1) = s.segments.toList.length := by
  have all := vacated_of_lt (Nat.lt_succ_of_le past)
  have none : s.toList[count]? = Option.none :=
    List.getElem?_eq_none (valid.length_eq ▸ past)
  refine ⟨?_, all⟩
  rw [none, List.drop_length, Drain.advance, drained, all, List.drop_length,
    if_pos (Nat.lt_succ_of_le past), Nat.sub_eq_zero_of_le past,
    Nat.sub_eq_zero_of_le (Nat.le_succ_of_le past)]

/-- A step behind the last element of a segment gives it back and goes on in the one after it. -/
theorem Valid.next_drained_passed (valid : s.Valid) {number taken : Nat} {segment : Buffer α}
    (here : s.segments.toList[number]? = some segment) (passed : taken = segment.size) :
    Drain.advance (σ := σ) s.options.clearsOnReturn
        (s.length - (number * s.options.segmentCapacity + taken)) taken
        (s.segments.toList.drop number) =
      (do
        s.giveBack [segment]
        return (s.toList[number * s.options.segmentCapacity + taken]?,
          s.drained (number * s.options.segmentCapacity + taken + 1))) ∧
      s.vacated (number * s.options.segmentCapacity + taken + 1) = number + 1 := by
  have size := valid.size_segment here
  have positive := s.options.segmentCapacity_pos
  obtain ⟨bound, rfl⟩ := List.getElem?_eq_some_iff.mp here
  rw [List.drop_eq_getElem_cons bound, Drain.advance_of_none (Nat.le_of_eq passed.symm)]
  have goesOn {step : Depot.Step σ (Option α × Drain α)} {answer : Option α × Drain α}
      (rest : step = pure answer) :
      (Depot.release s.segments.toList[number].cleared s.options.clearsOnReturn >>= fun _ => step) =
        (do s.giveBack [s.segments.toList[number]]; return answer) := by
    rw [rest]
    rfl
  by_cases more : number + 1 < s.segments.toList.length
  · have starts := (valid.lt_length_segments_iff (number + 1)).mp more
    have here' := List.getElem?_eq_getElem more
    have size' := valid.size_segment here'
    have atStart : number * s.options.segmentCapacity + taken =
        (number + 1) * s.options.segmentCapacity + 0 := by
      rw [Nat.succ_mul] at starts ⊢
      omega
    have occupied : 0 < s.segments.toList[number + 1].size := by omega
    obtain ⟨step, next⟩ := valid.next_drained_inside (σ := σ) here' occupied
    rw [atStart]
    exact ⟨goesOn step, next⟩
  · have ends := mt (valid.lt_length_segments_iff (number + 1)).mpr more
    have all : s.segments.toList.length = number + 1 := by omega
    have past : s.length ≤ number * s.options.segmentCapacity + taken := by
      rw [Nat.succ_mul] at ends
      omega
    obtain ⟨step, next⟩ := valid.next_drained_behind (σ := σ) past
    rw [all] at step next
    exact ⟨goesOn step, next⟩

/-- No more is taken from the first of the segments still held than it has. -/
theorem Valid.taken_le_size (valid : s.Valid) {count : Nat} (within : count ≤ s.length)
    {segment : Buffer α} (here : s.segments.toList[s.vacated count]? = some segment) :
    count - s.vacated count * s.options.segmentCapacity ≤ segment.size := by
  have size := valid.size_segment here
  have quotient := Nat.lt_mul_div_succ (count - 1) s.options.segmentCapacity_pos
  rw [← vacated_of_le within, Nat.mul_comm, Nat.succ_mul] at quotient
  omega

theorem Valid.vacated_lt (valid : s.Valid) {count : Nat} (within : count ≤ s.length)
    (some : s.length ≠ 0) : s.vacated count < s.segments.toList.length := by
  rw [valid.lt_length_segments_iff, vacated_of_le within]
  have before := Nat.div_mul_le_self (count - 1) s.options.segmentCapacity
  omega

/-- Where a drain is after so many steps: in a segment or right behind it, or behind the last one. -/
theorem Valid.drained_cases (valid : s.Valid) (count : Nat) :
    (s.length ≤ count ∧ s.vacated count = s.segments.toList.length ∧
      s.drained count = { clearsOnReturn := s.options.clearsOnReturn }) ∨
    ∃ number taken segment, s.segments.toList[number]? = some segment ∧ taken ≤ segment.size ∧
      count = number * s.options.segmentCapacity + taken ∧ s.vacated count = number ∧
      s.drained count = {
        buffers := s.segments.toList.drop number, taken, remaining := s.length - count
        clearsOnReturn := s.options.clearsOnReturn } := by
  rcases Nat.lt_or_ge s.length count with past | within
  · have all := vacated_of_lt past
    refine .inl ⟨Nat.le_of_lt past, all, ?_⟩
    rw [drained, all, List.drop_length, if_pos past, Nat.sub_eq_zero_of_le (Nat.le_of_lt past)]
  by_cases zero : s.length = 0
  · obtain rfl : count = 0 := Nat.le_zero.mp (zero ▸ within)
    have none : s.segments.toList = [] := by rw [segments, valid.length_eq_zero_iff.mp zero]
    refine .inl ⟨Nat.le_of_eq zero, by rw [vacated_zero, none, List.length_nil], ?_⟩
    rw [drained, none, zero, List.drop_nil, Nat.zero_sub, Nat.zero_sub, ite_self]
  · have here := List.getElem?_eq_getElem (valid.vacated_lt within zero)
    refine .inr ⟨_, _, _, here, valid.taken_le_size within here,
      (Nat.add_sub_cancel' (s.vacated_mul_le within)).symm, rfl, ?_⟩
    rw [drained, if_neg (Nat.not_lt.mpr within)]

/-- A step after so many others: the segment that the last of them has emptied goes back, and the
next element comes. -/
theorem Valid.next_drained (valid : s.Valid) (count : Nat) :
    s.vacated count ≤ s.vacated (count + 1) ∧
    ((s.drained count).next : Depot.Step σ _) = do
      s.giveBack ((s.segments.toList.drop (s.vacated count)).take
        (s.vacated (count + 1) - s.vacated count))
      return (s.toList[count]?, s.drained (count + 1)) := by
  rcases valid.drained_cases count with ⟨past, all, here⟩ |
    ⟨number, taken, segment, found, upTo, rfl, same, here⟩
  · obtain ⟨step, next⟩ := valid.next_drained_behind (σ := σ) past
    rw [all, next, Nat.sub_self, here]
    refine ⟨Nat.le_refl _, Eq.trans ?_ step⟩
    rw [List.drop_length, Nat.sub_eq_zero_of_le past, Drain.next]
  rw [same, here, Drain.next]
  rcases Nat.lt_or_eq_of_le upTo with inside | passed
  · obtain ⟨step, next⟩ := valid.next_drained_inside (σ := σ) found inside
    rw [next, Nat.sub_self]
    exact ⟨Nat.le_refl _, step⟩
  · obtain ⟨step, next⟩ := valid.next_drained_passed (σ := σ) found passed
    obtain ⟨bound, rfl⟩ := List.getElem?_eq_some_iff.mp found
    rw [next, Nat.add_sub_cancel_left, step, List.drop_eq_getElem_cons bound]
    exact ⟨Nat.le_succ _, rfl⟩

theorem giveBack_append (s : Sequence α) (first second : List (Buffer α)) :
    (s.giveBack (first ++ second) : Depot.Step σ Unit) =
      (do s.giveBack first; s.giveBack second) := by
  rw [giveBack, List.map_append]
  exact List.forM_append

/-- So many steps from the start: all segments that were emptied before the last of them have gone
back, and each has answered the element of its number. -/
theorem Valid.answers_eq (valid : s.Valid) (count : Nat) :
    (answers Drain.next count (Drain.ofSequence s) : Depot.Step σ _) = do
      s.giveBack (s.segments.toList.take (s.vacated count))
      return (yielded s.toList count, s.drained count) := by
  induction count with
  | zero =>
    rw [vacated_zero, drained_zero, yielded_zero]
    rfl
  | succ count ih =>
    obtain ⟨order, step⟩ := valid.next_drained (σ := σ) count
    have answer : (s.toList.drop count).head? = s.toList[count]? := List.head?_drop
    have split : s.segments.toList.take (s.vacated (count + 1)) =
        s.segments.toList.take (s.vacated count) ++
          (s.segments.toList.drop (s.vacated count)).take
            (s.vacated (count + 1) - s.vacated count) := by
      rw [← List.take_add, Nat.add_sub_cancel' order]
    rw [answers, ih, split, giveBack_append, yielded_concat, answer]
    simp only [bind_assoc, pure_bind, step]

theorem calls_giveBack (s : Sequence α) (segments : List (Buffer α)) (depot : Depot σ) :
    ((s.giveBack segments).run depot).2.calls = depot.calls ++
      (segments.map fun segment =>
        Call.release segment.capacity 0 s.options.clearsOnReturn).toArray := by
  rw [giveBack, calls_forM_release, List.map_map]
  rfl

end Sequence

/-! ### What is still held -/

namespace Drain

variable [Allocator σ α]

theorem calls_discard (drain : Drain α) (depot : Depot σ) :
    (drain.discard.run depot).2.calls = depot.calls ++
      (drain.held.reverse.map (Call.returned drain.clearsOnReturn)).toArray :=
  calls_forM_release drain.clearsOnReturn drain.held.reverse depot

end Drain

namespace Sequence

variable {s : Sequence α}

/-- What a drain holds after so many steps are the elements that it has not yielded. -/
theorem Valid.elements_held (valid : s.Valid) (count : Nat) :
    (s.drained count).held.flatMap Buffer.toList = s.toList.drop count := by
  rcases valid.drained_cases count with ⟨past, -, here⟩ |
    ⟨number, taken, segment, found, upTo, rfl, -, here⟩
  · rw [here, List.drop_of_length_le (valid.length_eq ▸ past)]
    rfl
  obtain ⟨bound, rfl⟩ := List.getElem?_eq_some_iff.mp found
  rw [← Buffer.length_toList] at upTo
  have elements : s.toList = (s.segments.toList.take number).flatMap Buffer.toList ++
      (s.segments.toList[number].toList ++
        (s.segments.toList.drop (number + 1)).flatMap Buffer.toList) := by
    rw [← List.flatMap_cons, ← List.drop_eq_getElem_cons bound, ← List.flatMap_append,
      List.take_append_drop, flatMap_segments]
  rw [here, elements, ← valid.length_take_segments bound, List.drop_length_add_append,
    List.drop_append_of_le_length upTo, List.drop_eq_getElem_cons bound, Drain.held,
    List.flatMap_cons]
  congr 1
  simp [Buffer.toList]

end Sequence

/-! ### From the ends of what is turned round -/

/-- The same storage with its elements turned round. -/
def Buffer.flipped (buffer : Buffer α) : Buffer α := { buffer with items := buffer.items.reverse }

/-- A drain that keeps its buffers turned round, the first to be emptied last, and takes elements
and buffers from the ends. -/
structure Unwinding (α : Type) where
  buffers : Array (Buffer α) := #[]
  remaining : Nat := 0
  clearsOnReturn : Bool := true

namespace Unwinding

variable [Allocator σ α]

/-- Takes a sequence apart. -/
def ofSequence (s : Sequence α) : Unwinding α where
  buffers := s.segments.reverse.map Buffer.flipped
  remaining := s.length
  clearsOnReturn := s.options.clearsOnReturn

/-- Takes the next element, if there is one; buffers with nothing left go back. -/
def next (unwinding : Unwinding α) : Depot.Step σ (Option α × Unwinding α) :=
  match _last : unwinding.buffers.back? with
  | none => pure (none, unwinding)
  | some buffer =>
    match buffer.items.back? with
    | some x =>
      let shorter := { buffer with items := buffer.items.pop }
      pure (some x, { unwinding with
        buffers := unwinding.buffers.pop.push shorter
        remaining := unwinding.remaining - 1 })
    | none => do
      Depot.release buffer unwinding.clearsOnReturn
      next { unwinding with buffers := unwinding.buffers.pop }
termination_by unwinding.buffers.size
decreasing_by
  obtain ⟨kept, same⟩ := Array.back?_eq_some_iff.mp _last
  simp [same]

theorem next_push (kept : Array (Buffer α)) (buffer : Buffer α) (remaining : Nat) (clear : Bool) :
    (next { buffers := kept.push buffer, remaining, clearsOnReturn := clear } : Depot.Step σ _) =
      match buffer.items.back? with
      | some x =>
        pure (some x, {
          buffers := kept.push { buffer with items := buffer.items.pop }
          remaining := remaining - 1, clearsOnReturn := clear })
      | none => Depot.release buffer clear >>= fun _ =>
        next { buffers := kept, remaining, clearsOnReturn := clear } := by
  conv_lhs => unfold next
  split
  · rename_i none
    simp at none
  · rename_i last
    simp only [Array.back?_push, Option.some.injEq] at last
    subst last
    simp only [Array.pop_push]

/-- Gives every buffer back, the last segment first. -/
def discard (unwinding : Unwinding α) : Depot.Step σ Unit :=
  unwinding.buffers.forM fun buffer => Depot.release buffer unwinding.clearsOnReturn

end Unwinding

namespace Drain

variable [Allocator σ α]

/-- The buffers held, turned round. -/
def unwinding (drain : Drain α) : Unwinding α where
  buffers := (drain.held.reverse.map Buffer.flipped).toArray
  remaining := drain.remaining
  clearsOnReturn := drain.clearsOnReturn

/-- The first element of the first buffer is the last of the last one. -/
theorem next_unwinding (drain : Drain α) :
    (drain.unwinding.next : Depot.Step σ _) = do
      let (answer, drain) ← drain.next
      return (answer, drain.unwinding) := by
  obtain ⟨buffers, taken, remaining, clear⟩ := drain
  -- A step that leaves the first buffer goes on in the next with nothing taken.
  induction buffers generalizing taken with
  | nil =>
    unfold Unwinding.next
    rfl
  | cons buffer rest ih =>
    have turned (taken remaining : Nat) : Drain.unwinding
        { buffers := buffer :: rest, taken, remaining, clearsOnReturn := clear } =
          { buffers := (rest.reverse.map Buffer.flipped).toArray.push
              { buffer with items := (buffer.items.drop taken).reverse },
            remaining, clearsOnReturn := clear } := by
      simp [unwinding, held, Buffer.flipped]
    have left (taken : Nat) :
        (buffer.items.drop taken).toList = buffer.items.toList.drop taken := by simp
    have first : (buffer.items.drop taken).reverse.back? = buffer.items[taken]? := by
      rw [← Array.getLast?_toList, Array.toList_reverse, List.getLast?_reverse, left,
        List.head?_drop, Array.getElem?_toList]
    rw [turned, Unwinding.next_push, next, advance, first]
    cases here : buffer.items[taken]? with
    | some x =>
      have shorter : (buffer.items.drop taken).reverse.pop =
          (buffer.items.drop (taken + 1)).reverse := by
        apply Array.ext'
        rw [Array.toList_pop, Array.toList_reverse, Array.toList_reverse, left, left,
          List.dropLast_reverse, List.tail_drop]
      simp only [pure_bind, turned, shorter]
    | none =>
      have vacant : ({ buffer with items := (buffer.items.drop taken).reverse } : Buffer α) =
          buffer.cleared := by
        have passed : buffer.items.size ≤ taken := by simpa using here
        simp [Buffer.cleared, Array.drop, passed]
      have others : Drain.unwinding { buffers := rest, remaining, clearsOnReturn := clear } =
          { buffers := (rest.reverse.map Buffer.flipped).toArray
            remaining, clearsOnReturn := clear } := by
        cases rest <;> simp [unwinding, held]
      have later := ih 0
      rw [others] at later
      simp only [vacant, later, bind_assoc]
      rfl

theorem unwinding_ofSequence (s : Sequence α) :
    (ofSequence s).unwinding = .ofSequence s := by
  have all : (ofSequence s).held = s.segments.toList := by
    unfold held ofSequence
    cases s.segments.toList <;> simp
  have turned : (s.segments.toList.reverse.map Buffer.flipped).toArray =
      s.segments.reverse.map Buffer.flipped := by
    apply Array.ext'
    rw [Array.toList_map, Array.toList_reverse]
  rw [unwinding, all, turned]
  rfl

theorem calls_discard_unwinding (drain : Drain α) (depot : Depot σ) :
    (drain.unwinding.discard.run depot).2.calls = (drain.discard.run depot).2.calls := by
  have listed : (drain.unwinding.discard : Depot.Step σ Unit) =
      (drain.held.reverse.map Buffer.flipped).forM fun buffer =>
        Depot.release buffer drain.clearsOnReturn := List.forM_toArray _ _
  have sizes (buffer : Buffer α) : Call.returned drain.clearsOnReturn buffer.flipped =
      Call.returned drain.clearsOnReturn buffer := by
    simp [Call.returned, Buffer.flipped, Buffer.size]
  rw [listed, calls_forM_release, calls_discard, List.map_map]
  simp only [Function.comp_def, sizes]

end Drain

namespace Sequence

variable [Allocator σ α] [BEq α] [Inhabited α] {s : Sequence α}

/-- Whatever operations a sequence comes from, taking it apart yields its elements in order and counts
them, at any number of steps. A segment goes back, empty, in the step after the one that takes its
last element; if the drain is dropped at that point, all other segments go back once, the last
first, with the elements that were not taken. Taken from the ends of buffers that are turned round,
the elements and the calls are the same. -/
theorem Reachable.consumed (reachable : s.Reachable) (count : Nat) (depot : Depot σ) :
    let clear := s.options.clearsOnReturn
    let segments := s.segments.toList
    let gone :=
      if s.length < count then s.segmentCount else (count - 1) / s.options.segmentCapacity
    let outcome := (answers Drain.next count (Drain.ofSequence s)).run depot
    let left := outcome.1.2
    let dropped := left.discard.run outcome.2
    outcome.1.1 = yielded s.toList count ∧
      left.remaining = s.length - min count s.length ∧
      outcome.2.calls = depot.calls ++ ((segments.take gone).map fun segment =>
        Call.release segment.capacity 0 clear).toArray ∧
      dropped.2.calls = outcome.2.calls ++
        (left.held.reverse.map fun buffer =>
          Call.release buffer.capacity buffer.size clear).toArray ∧
      left.held.map Buffer.capacity = (segments.drop gone).map Buffer.capacity ∧
      left.held.flatMap Buffer.toList = s.toList.drop count ∧
      (left.held.map Buffer.size).sum = s.length - min count s.length ∧
      (answers Unwinding.next count (Unwinding.ofSequence s)).run depot =
        ((outcome.1.1, left.unwinding), outcome.2) ∧
      (left.unwinding.discard.run outcome.2).2.calls = dropped.2.calls := by
  have valid := reachable.valid
  have run : (answers Drain.next count (Drain.ofSequence s)).run depot =
      ((yielded s.toList count, s.drained count),
        ((s.giveBack (s.segments.toList.take (s.vacated count))).run depot).2) :=
    congrArg (·.run depot) (valid.answers_eq count)
  have elements := valid.elements_held count
  have length := congrArg List.length elements
  intro clear segments gone outcome left dropped
  have left_eq : left = s.drained count := congrArg (·.1.2) run
  rw [← left_eq] at elements length
  refine ⟨congrArg (·.1.1) run, ?_, ?_, ?_, ?_, elements, ?_, ?_, left.calls_discard_unwinding _⟩
  · rw [left_eq]
    change s.length - count = _
    omega
  · refine (congrArg (·.2.calls) run).trans ?_
    exact calls_giveBack s _ depot
  · have flag : left.clearsOnReturn = clear := by rw [left_eq]; rfl
    rw [← flag]
    exact left.calls_discard outcome.2
  · rw [Drain.capacity_held, left_eq]
    rfl
  · rw [List.length_flatMap, List.length_drop, ← valid.length_eq] at length
    refine Eq.trans ?_ (length.trans (by omega))
    rfl
  · have image := answers_image (Drain.next_unwinding (σ := σ)) count (Drain.ofSequence s)
    rw [Drain.unwinding_ofSequence] at image
    rw [image]
    rfl

/-- Seventeen of twenty elements are taken one by one. The first segment has gone back then, and the
other is still held with three. -/
theorem consumed_of_twenty :
    let s : Sequence Nat := onHeap [.extend (List.range 20)]
    let depot : Depot (Heap Nat) := { allocator := ⟨⟩ }
    let outcome := (answers Drain.next 17 (Drain.ofSequence s)).run depot
    outcome.1.2.remaining = 3 ∧ outcome.2.calls = #[.release 16 0 true] ∧
      (outcome.1.2.held.map Buffer.size).sum = 3 := by
  intro s depot outcome
  have length : s.length = 20 := by decide +kernel
  have gone : (if s.length < 17 then s.segmentCount else (17 - 1) / s.options.segmentCapacity) =
      1 := by decide +kernel
  have given : (s.segments.toList.take 1).map (fun segment =>
      Call.release segment.capacity 0 s.options.clearsOnReturn) = [.release 16 0 true] := by
    decide +kernel
  obtain ⟨-, remaining, calls, -, -, -, sizes, -⟩ :=
    (reachable_onHeap _).consumed (s := s) 17 depot
  have run : (answers Drain.next 17 (Drain.ofSequence s)).run depot = outcome := rfl
  clear_value outcome
  rw [run, length] at remaining sizes
  rw [run, gone, given] at calls
  exact ⟨remaining, calls, sizes⟩

end Sequence

end Segmented
