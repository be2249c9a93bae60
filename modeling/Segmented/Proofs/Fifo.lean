import Segmented.Proofs.Fault
import Segmented.Proofs.Rewrite
import Segmented.Queue

/-! A queue is a line: whoever comes joins at the end, and the one that has waited longest is
served. Behind the head all slots are filled and before it all are vacant, through any run of
requests. -/

namespace Segmented.Queue

variable {σ α : Type}

/-! ### Requests -/

/-- What can be asked of a queue. -/
inductive Request (α : Type) where
  | enqueue (x : α)
  | extend (xs : List α)
  | dequeue
  | peek
  | list
  | length
  | clear

/-- What a queue answers. -/
inductive Answer (α : Type) where
  | done
  | served (outcome : Except Error α)
  | first (outcome : Except Error α)
  | listed (xs : List α)
  | count (n : Nat)

/-- What a request does to a line. -/
def Request.onLine : Request α → List α → Answer α × List α
  | enqueue x, waiting => (.done, waiting ++ [x])
  | extend xs, waiting => (.done, waiting ++ xs)
  | dequeue, [] => (.served (.error .empty), [])
  | dequeue, x :: waiting => (.served (.ok x), waiting)
  | peek, [] => (.first (.error .empty), [])
  | peek, x :: waiting => (.first (.ok x), x :: waiting)
  | list, waiting => (.listed waiting, waiting)
  | length, waiting => (.count waiting.length, waiting)
  | clear, _ => (.done, [])

/-- What a run of requests does to a line, with the answers in turn. -/
def Request.onLineAll : List (Request α) → List α → List (Answer α) × List α
  | [], waiting => ([], waiting)
  | request :: rest, waiting =>
    let (answer, waiting) := request.onLine waiting
    let (answers, waiting) := onLineAll rest waiting
    (answer :: answers, waiting)

section

variable [Allocator σ (Option α)]

def serve : Request α → Queue α → Depot.Step σ (Answer α × Queue α)
  | .enqueue x, queue => do return (.done, ← queue.enqueue x)
  | .extend xs, queue => do return (.done, ← queue.extend xs)
  | .dequeue, queue => do
    let (outcome, queue) ← queue.dequeue
    return (.served outcome, queue)
  | .peek, queue => return (.first queue.peek, queue)
  | .list, queue => return (.listed queue.toList, queue)
  | .length, queue => return (.count queue.length, queue)
  | .clear, queue => do return (.done, ← queue.clear)

def serveAll : List (Request α) → Queue α → Depot.Step σ (List (Answer α) × Queue α)
  | [], queue => pure ([], queue)
  | request :: rest, queue => do
    let (answer, queue) ← queue.serve request
    let (answers, queue) ← queue.serveAll rest
    return (answer :: answers, queue)

end

/-! ### The slots -/

/-- The slots before the head are vacant, and the others hold the waiting elements in order. -/
def Lined (options : Options) (queue : Queue α) (waiting : List α) : Prop :=
  ({ options } : Sequence (Option α)).Follows
    (List.replicate queue.head none ++ waiting.map some) queue.slots

/-- The head is also back at the start when nobody waits. -/
structure Holds (options : Options) (queue : Queue α) (waiting : List α) : Prop where
  lined : queue.Lined options waiting
  drained : waiting = [] → queue.head = 0

variable {options : Options} {queue : Queue α} {waiting : List α}

theorem holds_withOptions (options : Options) :
    (withOptions options : Queue α).Holds options [] where
  lined := .refl (Sequence.valid_empty options 2)
  drained _ := rfl

namespace Lined

theorem length_slots (lined : queue.Lined options waiting) :
    queue.slots.length = queue.head + waiting.length := by
  rw [lined.valid.length_eq, lined.elements]
  simp

theorem length_eq (lined : queue.Lined options waiting) : queue.length = waiting.length := by
  rw [Queue.length, lined.length_slots, Nat.add_sub_cancel_left]

theorem isEmpty_eq (lined : queue.Lined options waiting) : queue.isEmpty = waiting.isEmpty := by
  rw [isEmpty, lined.length_eq]
  cases waiting <;> rfl

theorem get?_slots (lined : queue.Lined options waiting) (index : Nat) :
    queue.slots.get? index = (List.replicate queue.head none ++ waiting.map some)[index]? := by
  rw [lined.valid.get?_eq, lined.elements]

theorem peek_eq (lined : queue.Lined options waiting) :
    queue.peek = match waiting with
      | [] => .error .empty
      | x :: _ => .ok x := by
  rw [peek, lined.get?_slots]
  cases waiting <;> simp

theorem toList_eq (lined : queue.Lined options waiting) : queue.toList = waiting := by
  rw [toList, lined.elements]
  simp

/-- The served slot joins the vacant ones. -/
theorem vacate {x : α} (lined : queue.Lined options (x :: waiting)) :
    queue.slots.storage = queue.vacate.slots.storage ∧ queue.vacate.Lined options waiting := by
  obtain ⟨stored, follows⟩ := Sequence.follows_set lined.valid queue.head none
  have slots : queue.slots.toList.set queue.head none =
      List.replicate (queue.head + 1) none ++ waiting.map some := by
    rw [lined.elements, List.set_append_right _ _ (by simp), List.replicate_succ']
    simp
  rw [slots] at follows
  exact ⟨stored, lined.trans follows⟩

end Lined

/-! ### Steps and runs -/

section

variable [Allocator σ (Option α)] [LawfulAllocator σ (Option α)]

open Depot (Ensures)

theorem ensures_enqueue (holds : queue.Holds options waiting) (x : α) :
    Ensures (σ := σ) options.segmentCapacity queue.slots.storage (queue.enqueue x)
      (fun queue' => queue'.slots.storage)
      (fun queue' => queue'.Holds options (waiting ++ [x])) := by
  have pushed := Sequence.ensures_push (σ := σ) holds.lined.valid (some x)
  rw [holds.lined.options, holds.lined.elements, List.append_assoc] at pushed
  refine pushed.map fun slots follows => ⟨rfl, ?_, ?_⟩
  · rw [Lined, List.map_append]
    exact holds.lined.trans follows
  · intro none
    simp at none

theorem ensures_extend (holds : queue.Holds options waiting) (xs : List α) :
    Ensures (σ := σ) options.segmentCapacity queue.slots.storage (queue.extend xs)
      (fun queue' => queue'.slots.storage)
      (fun queue' => queue'.Holds options (waiting ++ xs)) := by
  unfold extend
  induction xs generalizing queue waiting with
  | nil =>
    rw [List.append_nil]
    exact Ensures.pure rfl holds
  | cons x rest ih =>
    rw [List.foldlM_cons]
    apply (ensures_enqueue holds x).bind
    intro queue' holds'
    have later := ih holds'
    rwa [List.append_assoc] at later

theorem ensures_clear (lined : queue.Lined options waiting) :
    Ensures (σ := σ) options.segmentCapacity queue.slots.storage queue.clear
      (fun queue' => queue'.slots.storage) (fun queue' => queue'.Holds options []) :=
  (Sequence.ensures_clear lined.valid).map fun _ cleared =>
    ⟨rfl, lined.trans cleared, fun _ => rfl⟩

theorem ensures_dequeue (holds : queue.Holds options waiting) :
    Ensures (σ := σ) options.segmentCapacity queue.slots.storage queue.dequeue
      (fun after => after.2.slots.storage)
      (fun after => (.served after.1, waiting.tail) = Request.dequeue.onLine waiting ∧
        after.2.Holds options waiting.tail) := by
  unfold dequeue
  rw [holds.lined.isEmpty_eq]
  cases waiting with
  | nil => exact Ensures.pure rfl ⟨rfl, holds⟩
  | cons x waiting =>
    obtain ⟨stored, vacated⟩ := holds.lined.vacate
    simp only [List.isEmpty_cons, Bool.false_eq_true, if_false, holds.lined.peek_eq,
      vacated.isEmpty_eq]
    cases waiting with
    | nil =>
      rw [stored]
      exact (ensures_clear vacated).map fun queue' holds' => ⟨rfl, rfl, holds'⟩
    | cons y waiting => exact Ensures.pure stored ⟨rfl, vacated, nofun⟩

/-- One request is answered as by the line, and leaves the queue with the line that it leaves. -/
theorem ensures_serve (holds : queue.Holds options waiting) (request : Request α) :
    Ensures (σ := σ) options.segmentCapacity queue.slots.storage (queue.serve request)
      (fun after => after.2.slots.storage)
      (fun after => after.1 = (request.onLine waiting).1 ∧
        after.2.Holds options (request.onLine waiting).2) := by
  cases request with
  | enqueue x => exact (ensures_enqueue holds x).map fun _ holds' => ⟨rfl, rfl, holds'⟩
  | extend xs => exact (ensures_extend holds xs).map fun _ holds' => ⟨rfl, rfl, holds'⟩
  | clear => exact (ensures_clear holds.lined).map fun _ holds' => ⟨rfl, rfl, holds'⟩
  | list => exact Ensures.pure rfl ⟨congrArg Answer.listed holds.lined.toList_eq, holds⟩
  | length => exact Ensures.pure rfl ⟨congrArg Answer.count holds.lined.length_eq, holds⟩
  | dequeue =>
    refine (ensures_dequeue holds).map fun after done => ⟨rfl, ?_⟩
    rw [← done.1]
    exact ⟨rfl, done.2⟩
  | peek =>
    have first := holds.lined.peek_eq
    cases waiting with
    | nil => exact Ensures.pure rfl ⟨congrArg Answer.first first, holds⟩
    | cons x waiting => exact Ensures.pure rfl ⟨congrArg Answer.first first, holds⟩

theorem ensures_serveAll (holds : queue.Holds options waiting) (requests : List (Request α)) :
    Ensures (σ := σ) options.segmentCapacity queue.slots.storage (queue.serveAll requests)
      (fun after => after.2.slots.storage)
      (fun after => after.1 = (Request.onLineAll requests waiting).1 ∧
        after.2.Holds options (Request.onLineAll requests waiting).2) := by
  induction requests generalizing queue waiting with
  | nil => exact Ensures.pure rfl ⟨rfl, holds⟩
  | cons request rest ih =>
    apply (ensures_serve holds request).bind
    rintro ⟨answer, queue'⟩ ⟨rfl, holds'⟩
    refine (ih holds').map fun after done => ⟨rfl, ?_, done.2⟩
    rw [done.1]
    rfl

/-! ### Lengths that are checked -/

/-- The length, if the head is within the slots. -/
def checkedLength (queue : Queue α) : Except Fault Nat := Word.sub queue.slots.length queue.head

/-- A service that works out each length with a check. -/
def checkedDequeue (queue : Queue α) : Checked σ (Except Error α × Queue α) := do
  if (← queue.checkedLength) = 0 then
    return (.error .empty, queue)
  else
    let served := queue.peek
    let queue := queue.vacate
    if (← queue.checkedLength) = 0 then
      let queue ← Checked.lift queue.clear
      return (served, queue)
    else
      return (served, queue)

def checkedServe : Request α → Queue α → Checked σ (Answer α × Queue α)
  | .dequeue, queue => do
    let (outcome, queue) ← queue.checkedDequeue
    return (.served outcome, queue)
  | .length, queue => do
    let length ← queue.checkedLength
    return (.count length, queue)
  | request, queue => Checked.lift (queue.serve request)

def checkedServeAll : List (Request α) → Queue α → Checked σ (List (Answer α) × Queue α)
  | [], queue => pure ([], queue)
  | request :: rest, queue => do
    let (answer, queue) ← queue.checkedServe request
    let (answers, queue) ← queue.checkedServeAll rest
    return (answer :: answers, queue)

theorem Lined.checkedLength_eq (lined : queue.Lined options waiting) :
    queue.checkedLength = .ok queue.length :=
  Word.sub_eq (lined.length_slots ▸ Nat.le_add_right ..)

open Checked (Agrees agrees_lift agrees_pure)

theorem agrees_checkedDequeue (holds : queue.Holds options waiting) :
    Agrees (σ := σ) (α := Option α) queue.checkedDequeue queue.dequeue := by
  unfold checkedDequeue dequeue
  rw [holds.lined.checkedLength_eq, liftM_ok_bind, isEmpty, holds.lined.length_eq]
  cases waiting with
  | nil => exact agrees_pure _
  | cons x waiting =>
    obtain ⟨-, vacated⟩ := holds.lined.vacate
    simp only [List.length_cons, Nat.add_eq_zero_iff, one_ne_zero, and_false, if_false,
      vacated.checkedLength_eq, liftM_ok_bind, isEmpty, vacated.length_eq]
    cases waiting with
    | nil => exact (agrees_lift _).map fun _ => rfl
    | cons y waiting => exact agrees_pure _

theorem agrees_checkedServe (holds : queue.Holds options waiting) (request : Request α) :
    Agrees (σ := σ) (α := Option α) (queue.checkedServe request) (queue.serve request) := by
  cases request with
  | dequeue => exact (agrees_checkedDequeue holds).map fun _ => rfl
  | length =>
    simp only [checkedServe, holds.lined.checkedLength_eq, liftM_ok_bind]
    exact agrees_pure _
  | _ => exact agrees_lift _

theorem agrees_checkedServeAll (holds : queue.Holds options waiting)
    (requests : List (Request α)) :
    Agrees (σ := σ) (α := Option α) (queue.checkedServeAll requests) (queue.serveAll requests) := by
  induction requests generalizing queue waiting with
  | nil => exact agrees_pure _
  | cons request rest ih =>
    apply (agrees_checkedServe holds request).bind (ensures_serve holds request).keeps
    rintro ⟨answer, queue'⟩ ⟨-, holds'⟩
    exact (ih holds').map fun _ => rfl

end

/-! ### First in, first out -/

/-- What can be seen of a queue in which the listed elements wait. -/
structure InLine (queue : Queue α) (waiting : List α) : Prop where
  head : queue.head ≤ queue.slots.length
  vacant : ∀ index < queue.head, queue.slots.get? index = some none
  filled : ∀ index, queue.slots.get? (queue.head + index) = waiting[index]?.map some
  count : queue.slots.length = queue.head + waiting.length
  live : queue.slots.disposed = false
  empty : waiting = [] →
    queue.head = 0 ∧ queue.slots.length = 0 ∧ queue.slots.root = none ∧ queue.slots.storage = 0

theorem Holds.inLine (holds : queue.Holds options waiting) : queue.InLine waiting := by
  have length := holds.lined.length_slots
  refine ⟨by omega, fun index vacant => ?_, fun index => ?_, length, holds.lined.disposed, ?_⟩
  · rw [holds.lined.get?_slots, List.getElem?_append_left (by simpa using vacant)]
    simp [vacant]
  · rw [holds.lined.get?_slots, List.getElem?_append_right (by simp)]
    simp
  · rintro rfl
    have head := holds.drained rfl
    have zero : queue.slots.length = 0 := length.trans (by rw [head]; rfl)
    have root := holds.lined.valid.length_eq_zero_iff.mp zero
    exact ⟨head, zero, root, Sequence.storage_of_root_none root⟩

/-- The elements that a request brings. -/
def Request.arrivals : Request α → List α
  | enqueue x => [x]
  | extend xs => xs
  | _ => []

/-- The element that an answer hands over. -/
def Answer.departures : Answer α → List α
  | served (.ok x) => [x]
  | _ => []

namespace Request

/-- The one that a request serves was the first in the line, and what it brings is now the last. -/
theorem departures_append_onLine (request : Request α) (waiting : List α) :
    let after := request.onLine waiting
    (after.1.departures ++ after.2).Sublist (waiting ++ request.arrivals) ∧
      (request ≠ .clear → after.1.departures ++ after.2 = waiting ++ request.arrivals) := by
  have of_eq {xs ys : List α} (same : xs = ys) : xs.Sublist ys ∧ (request ≠ .clear → xs = ys) :=
    ⟨same ▸ .refl xs, fun _ => same⟩
  cases request with
  | enqueue x => exact of_eq rfl
  | extend xs => exact of_eq rfl
  | list => exact of_eq (List.append_nil waiting).symm
  | length => exact of_eq (List.append_nil waiting).symm
  | clear => exact ⟨List.nil_sublist _, fun other => absurd rfl other⟩
  | dequeue => cases waiting <;> exact of_eq (List.append_nil _).symm
  | peek => cases waiting <;> exact of_eq (List.append_nil _).symm

/-- Those that were served, and behind them those that wait, came in this order; without a request
to clear the queue they are all that came. -/
theorem departures_append_onLineAll (requests : List (Request α)) (waiting : List α) :
    let after := onLineAll requests waiting
    (after.1.flatMap Answer.departures ++ after.2).Sublist
        (waiting ++ requests.flatMap arrivals) ∧
      (clear ∉ requests → after.1.flatMap Answer.departures ++ after.2 =
        waiting ++ requests.flatMap arrivals) := by
  induction requests generalizing waiting with
  | nil => exact ⟨(List.append_nil waiting).symm ▸ .refl waiting, fun _ => (List.append_nil _).symm⟩
  | cons request rest ih =>
    obtain ⟨kept, all⟩ := departures_append_onLine request waiting
    obtain ⟨kept', all'⟩ := ih (request.onLine waiting).2
    simp only [onLineAll, List.flatMap_cons, List.append_assoc]
    rw [← List.append_assoc waiting]
    constructor
    · refine (kept'.append_left _).trans ?_
      rw [← List.append_assoc]
      exact kept.append_right _
    · intro never
      rw [List.mem_cons, not_or] at never
      obtain ⟨other, others⟩ := never
      rw [all' others, ← List.append_assoc, all (Ne.symm other)]

end Request

/-- Whatever is asked of a new queue, it answers as a line does, no length that it works out is
below zero, and its slots show the line. Whoever was served or waits came in this order, and is
all that came if the queue was never cleared. The storage that is out is that of the slots. -/
theorem serveAll_fifo [Allocator σ (Option α)] [LawfulAllocator σ (Option α)] (options : Options)
    (requests : List (Request α)) (depot : Depot σ)
    (sound : LawfulAllocator.Sound depot.allocator) :
    ∃ queue depot',
      ((withOptions options).serveAll requests).run depot =
        (((Request.onLineAll requests []).1, queue), depot') ∧
      ((withOptions options).checkedServeAll requests).run.run depot =
        (.ok ((Request.onLineAll requests []).1, queue), depot') ∧
      queue.InLine (Request.onLineAll requests []).2 ∧
      (∃ calls, depot'.calls.toList = depot.calls.toList ++ calls ∧
        Call.replay calls 0 = some queue.slots.storage) ∧
      ((Request.onLineAll requests []).1.flatMap Answer.departures ++
        (Request.onLineAll requests []).2).Sublist (requests.flatMap Request.arrivals) ∧
      (.clear ∉ requests → (Request.onLineAll requests []).1.flatMap Answer.departures ++
        (Request.onLineAll requests []).2 = requests.flatMap Request.arrivals) := by
  have fresh := holds_withOptions (α := α) options
  have checked := agrees_checkedServeAll fresh requests depot sound
  have served := ensures_serveAll fresh requests depot sound
  cases run : ((withOptions options).serveAll requests).run depot with
  | mk after depot' =>
    rw [run] at checked served
    obtain ⟨answers, queue⟩ := after
    obtain ⟨extended, rfl, holds⟩ := served
    obtain ⟨calls, record, -, account⟩ := extended.calls
    obtain ⟨kept, all⟩ := Request.departures_append_onLineAll requests []
    exact ⟨queue, depot', rfl, checked, holds.inLine, ⟨calls, record, account⟩, kept, all⟩

/-- The head crosses a segment, the queue drains, and the next one in line starts afresh. -/
theorem serveAll_fifo_twenty_three :
    let requests : List (Request Nat) :=
      [.extend (List.range 20)] ++ List.replicate 18 .dequeue ++ [.peek, .extend [20, 21], .list] ++
        List.replicate 5 .dequeue ++ [.length, .enqueue 22]
    let depot : Depot (Heap (Option Nat)) := { allocator := ⟨⟩ }
    ∃ queue depot',
      ((withOptions { segmentCapacity := 16 }).serveAll requests).run depot =
        (((Request.onLineAll requests []).1, queue), depot') ∧
      queue.InLine [22] ∧
      (Request.onLineAll requests []).1.flatMap Answer.departures = List.range 22 := by
  intro requests depot
  have last : (Request.onLineAll requests []).2 = [22] := by decide
  have gone : (Request.onLineAll requests []).1.flatMap Answer.departures = List.range 22 := by
    decide
  obtain ⟨queue, depot', run, -, line, -⟩ :=
    serveAll_fifo { segmentCapacity := 16 } requests depot trivial
  exact ⟨queue, depot', run, last ▸ line, gone⟩

end Segmented.Queue
