import Segmented.Proofs.CheckedInPlace
import Segmented.Proofs.CheckedLength
import Segmented.Proofs.Custody
import Segmented.Proofs.Layout
import Segmented.Traversal.Walk

/-! Traversals with every check that is made. A walk and a drain count down the elements that are
still to come, which is sound because the count is that of the elements in front of them. -/

namespace Segmented

variable {σ α : Type}

open Checked (Agrees agrees_check agrees_lift agrees_pure)
open Depot (Keeps)

/-! ### Walks -/

namespace Walk

def checkedEnter (remaining : Nat) : List (Buffer α) → Except Fault (Option α × Walk α)
  | [] => .ok (none, { remaining })
  | buffer :: ahead =>
    match buffer.items[0]? with
    | none => checkedEnter remaining ahead
    | some x => do
      let remaining ← Word.sub remaining 1
      return (some x, { current := buffer.items, position := 1, ahead, remaining })

def checkedNext (walk : Walk α) : Except Fault (Option α × Walk α) :=
  match walk.current[walk.position]? with
  | some x => do
    let remaining ← Word.sub walk.remaining 1
    return (some x, { walk with position := walk.position + 1, remaining })
  | none => checkedEnter walk.remaining walk.ahead

/-- The walk counts the elements in front of it. -/
def Counts (walk : Walk α) : Prop := walk.remaining = walk.pending.length

theorem counts_iff {walk : Walk α} : walk.Counts ↔ walk.remaining =
    walk.current.size - walk.position + (walk.ahead.flatMap Buffer.toList).length := by
  rw [Counts, pending, List.length_append, List.length_drop, Array.length_toList]

theorem checkedEnter_eq {remaining : Nat} {ahead : List (Buffer α)}
    (counts : remaining = (ahead.flatMap Buffer.toList).length) :
    checkedEnter remaining ahead = .ok (enter remaining ahead) ∧
      (enter remaining ahead).2.Counts := by
  induction ahead with
  | nil => exact ⟨rfl, counts⟩
  | cons buffer rest ih =>
    rw [List.flatMap_cons, List.length_append] at counts
    have size : buffer.toList.length = buffer.items.size := Array.length_toList
    unfold checkedEnter enter
    cases here : buffer.items[0]? with
    | none =>
      have vacant : buffer.items.size = 0 := by simpa using here
      exact ih (by omega)
    | some x =>
      obtain ⟨inside, -⟩ := Array.getElem?_eq_some_iff.mp here
      dsimp only
      rw [Word.sub_eq (by omega)]
      refine ⟨rfl, counts_iff.mpr ?_⟩
      dsimp only
      omega

/-- A step of a walk that counts right passes its checks, and the walk goes on counting right. -/
theorem Counts.checkedNext_eq {walk : Walk α} (counts : walk.Counts) :
    walk.checkedNext = .ok walk.next ∧ walk.next.2.Counts := by
  rw [counts_iff] at counts
  unfold checkedNext next
  cases here : walk.current[walk.position]? with
  | none =>
    have passed : walk.current.size ≤ walk.position := by simpa using here
    exact checkedEnter_eq (by omega)
  | some x =>
    obtain ⟨inside, -⟩ := Array.getElem?_eq_some_iff.mp here
    dsimp only
    rw [Word.sub_eq (by omega)]
    refine ⟨rfl, counts_iff.mpr ?_⟩
    dsimp only
    omega

/-- The walks that come from a sequence. -/
inductive Of (s : Sequence α) : Walk α → Prop
  | start : Of s s.walk
  | next {walk : Walk α} (before : Of s walk) : Of s walk.next.2

theorem Of.counts {s : Sequence α} (valid : s.Valid) {walk : Walk α} (walked : Of s walk) :
    walk.Counts := by
  induction walked with
  | start =>
    have remaining : s.walk.remaining = s.length := by
      unfold Sequence.walk
      split <;> rfl
    rw [Counts, Sequence.pending_walk, remaining, valid.length_eq]
  | next _ ih => exact ih.checkedNext_eq.2

end Walk

/-! ### Walks down a stack -/

namespace StackWalk

def checkedNext (walk : StackWalk α) : Except Fault (Option α × StackWalk α) :=
  if walk.low < walk.high then do
    let high ← Word.sub walk.high 1
    let x ← walk.source.demand high
    return (some x, { walk with high })
  else .ok (none, walk)

def checkedNextBack (walk : StackWalk α) : Except Fault (Option α × StackWalk α) :=
  if walk.low < walk.high then do
    let x ← walk.source.demand walk.low
    let low ← Word.add 64 walk.low 1
    return (some x, { walk with low })
  else .ok (none, walk)

/-- The walks that come from a sequence, with steps at either end. -/
inductive Of (s : Sequence α) : StackWalk α → Prop
  | start : Of s s.stackWalk
  | next {walk : StackWalk α} (before : Of s walk) : Of s walk.next.2
  | nextBack {walk : StackWalk α} (before : Of s walk) : Of s walk.nextBack.2

variable {s : Sequence α} {walk : StackWalk α}

theorem Of.inside (walked : Of s walk) : walk.source = s ∧ walk.high ≤ s.length := by
  induction walked with
  | start => exact ⟨rfl, Nat.le_refl _⟩
  | next _ ih =>
    unfold StackWalk.next
    split
    · exact ⟨ih.1, Nat.le_trans (Nat.sub_le ..) ih.2⟩
    · exact ih
  | nextBack _ ih =>
    unfold StackWalk.nextBack
    split
    · exact ih
    · exact ih

theorem Of.checkedNext_eq (walked : Of s walk) (valid : s.Valid) (small : s.length < 2 ^ 64) :
    walk.checkedNext = .ok walk.next := by
  obtain ⟨rfl, inside⟩ := walked.inside
  have size : walk.source.length = walk.source.toArray.size := valid.length_eq
  unfold checkedNext StackWalk.next
  split
  · have bound : walk.high - 1 < walk.source.toArray.size := by omega
    rw [Word.sub_eq (by omega)]
    dsimp only [bind, Except.bind]
    rw [valid.demand_eq small bound, valid.get?_eq]
    simp [Sequence.toList, bound, pure, Except.pure]
  · rfl

theorem Of.checkedNextBack_eq (walked : Of s walk) (valid : s.Valid) (small : s.length < 2 ^ 64) :
    walk.checkedNextBack = .ok walk.nextBack := by
  obtain ⟨rfl, inside⟩ := walked.inside
  have size : walk.source.length = walk.source.toArray.size := valid.length_eq
  unfold checkedNextBack StackWalk.nextBack
  split
  · have bound : walk.low < walk.source.toArray.size := by omega
    rw [valid.demand_eq small bound, valid.get?_eq]
    dsimp only [bind, Except.bind]
    rw [Word.add_eq (by omega)]
    simp [Sequence.toList, bound, pure, Except.pure]
  · rfl

end StackWalk

/-! ### Cursors -/

namespace Cursor

def checkedAdvance (s : Sequence α) (cursor : Cursor) :
    Except Fault (Except Error (Option α) × Cursor) :=
  if s.version ≠ cursor.version then .ok (.error .modified, cursor)
  else do
    match ← s.checkedGet? cursor.position with
    | none => return (.ok none, cursor)
    | some x =>
      let position ← Word.add 64 cursor.position 1
      return (.ok (some x), { cursor with position })

/-- Any cursor may be advanced over any sequence, also over one that it was not made for. -/
theorem checkedAdvance_eq {s : Sequence α} (small : s.length < 2 ^ 64) (cursor : Cursor) :
    cursor.checkedAdvance s = .ok (cursor.advance s) := by
  unfold checkedAdvance advance
  split
  · rfl
  · rw [Sequence.checkedGet?_eq small]
    cases here : s.get? cursor.position with
    | none => rfl
    | some x =>
      have inside : cursor.position < s.length := by
        unfold Sequence.get? at here
        split at here
        · assumption
        · exact nomatch here
      dsimp only [bind, Except.bind]
      rw [Word.add_eq (by omega)]
      rfl

end Cursor

/-! ### Drains -/

namespace Drain

variable [Allocator σ α]

def checkedAdvance (clear : Bool) (remaining : Nat) :
    Nat → List (Buffer α) → Checked σ (Option α × Drain α)
  | taken, [] => return (none, { taken, remaining, clearsOnReturn := clear })
  | taken, buffer :: rest =>
    match buffer.items[taken]? with
    | some x => do
      let remaining ← Word.sub remaining 1
      return (some x, { buffers := buffer :: rest, taken := taken + 1, remaining,
                        clearsOnReturn := clear })
    | none => do
      Checked.lift (Depot.release buffer.cleared clear)
      checkedAdvance clear remaining 0 rest

def checkedNext (drain : Drain α) : Checked σ (Option α × Drain α) :=
  checkedAdvance drain.clearsOnReturn drain.remaining drain.taken drain.buffers

/-- The elements that up to `count` steps yield, before those listed. -/
def checkedTake : Nat → List α → Drain α → Checked σ (List α × Drain α)
  | 0, taken, drain => return (taken.reverse, drain)
  | count + 1, taken, drain => do
    match ← drain.checkedNext with
    | (none, drain) => return (taken.reverse, drain)
    | (some x, drain) => checkedTake count (x :: taken) drain

/-- The drain counts the elements that it still holds. -/
def Counts (drain : Drain α) : Prop :=
  drain.remaining = (drain.held.flatMap Buffer.toList).length

omit [Allocator σ α] in
/-- What is left of the first buffer, and the others. -/
theorem counts_cons {buffer : Buffer α} {rest : List (Buffer α)} {taken remaining : Nat}
    {clear : Bool} :
    Counts { buffers := buffer :: rest, taken, remaining, clearsOnReturn := clear } ↔
      remaining = buffer.items.size - taken + (rest.flatMap Buffer.toList).length := by
  simp [Counts, held, Buffer.toList]

variable [LawfulAllocator σ α]

theorem agrees_checkedAdvance {clear : Bool} {remaining taken : Nat} {buffers : List (Buffer α)}
    (counts : Counts { buffers, taken, remaining, clearsOnReturn := clear }) :
    Agrees (σ := σ) (checkedAdvance clear remaining taken buffers)
        (advance clear remaining taken buffers) ∧
      Keeps (σ := σ) (α := α) (advance clear remaining taken buffers)
        fun answer => answer.2.Counts := by
  induction buffers generalizing taken with
  | nil => exact ⟨agrees_pure _, Keeps.pure counts⟩
  | cons buffer rest ih =>
    rw [counts_cons] at counts
    unfold checkedAdvance advance
    cases here : buffer.items[taken]? with
    | some x =>
      obtain ⟨inside, -⟩ := Array.getElem?_eq_some_iff.mp here
      dsimp only
      rw [Word.sub_eq (by omega), liftM_ok_bind]
      exact ⟨agrees_pure _, Keeps.pure (counts_cons.mpr (by omega))⟩
    | none =>
      -- A buffer that is used up counts for nothing, so that the count carries over to the others.
      have passed : buffer.items.size ≤ taken := by simpa using here
      have counts' : Counts { buffers := rest, remaining, clearsOnReturn := clear } := by
        cases rest with
        | nil => simpa [Counts, held, Nat.sub_eq_zero_of_le passed] using counts
        | cons next others =>
          rw [counts_cons]
          simpa [Nat.sub_eq_zero_of_le passed, Buffer.toList] using counts
      obtain ⟨agrees, keeps⟩ := ih counts'
      have released : Depot.Ensures (σ := σ) 0 _ (Depot.release buffer.cleared clear) _ _ :=
        Depot.ensures_release buffer.cleared clear
      exact ⟨(agrees_lift _).bind released.keeps fun _ _ => agrees,
        released.keeps.bind fun _ _ => keeps⟩

/-- However many steps a drain makes, it passes all checks. -/
theorem Counts.agrees_checkedTake {drain : Drain α} (counts : drain.Counts) (count : Nat) :
    Agrees (σ := σ) (checkedTake count [] drain) (drain.take count) := by
  have agrees_go (count : Nat) (taken : List α) {drain : Drain α} (counts : drain.Counts) :
      Agrees (σ := σ) (checkedTake count taken drain) (take.go count taken drain) := by
    induction count generalizing taken drain with
    | zero => exact agrees_pure _
    | succ count ih =>
      obtain ⟨agrees, keeps⟩ := agrees_checkedAdvance (σ := σ) counts
      unfold checkedTake take.go
      refine agrees.bind keeps ?_
      rintro ⟨found, drain'⟩ counts'
      cases found with
      | none => exact agrees_pure _
      | some x => exact ih (x :: taken) counts'
  exact agrees_go count [] counts

omit [Allocator σ α] [LawfulAllocator σ α] in
theorem counts_ofSequence {s : Sequence α} (valid : s.Valid) : (ofSequence s).Counts := by
  have length := valid.length_eq
  rw [← Sequence.flatMap_segments] at length
  unfold Counts ofSequence held
  dsimp only
  cases segments : s.segments.toList with
  | nil => rwa [segments] at length
  | cons buffer rest =>
    rw [segments] at length
    simpa [Buffer.toList] using length

end Drain

/-! ### The number of segments -/

namespace Tree

def checkedSegmentCount : {level : Nat} → Tree α level → Except Fault Nat
  | 0, _ => .ok 1
  | _ + 1, (children : Array (Tree α _)) =>
    children.foldlM (fun count child => do Word.add 64 count (← checkedSegmentCount child)) 0

theorem checkedSegmentCount_eq {level : Nat} (tree : Tree α level)
    (small : tree.row.length < 2 ^ 64) : tree.checkedSegmentCount = .ok tree.segmentCount := by
  rw [segmentCount_eq_row]
  induction level with
  | zero => rfl
  | succ level ih =>
    have counts (children : List (Tree α level)) (count : Nat)
        (small : count + (children.flatMap row).length < 2 ^ 64) :
        children.foldlM (m := Except Fault)
            (fun count child => do Word.add 64 count (← checkedSegmentCount child)) count =
          .ok (count + (children.flatMap row).length) := by
      induction children generalizing count with
      | nil => rfl
      | cons child rest tail =>
        rw [List.flatMap_cons, List.length_append] at small ⊢
        rw [List.foldlM_cons, ih child (by omega)]
        dsimp only [bind, Except.bind]
        rw [Word.add_eq (by omega), ← Nat.add_assoc]
        exact tail _ (by omega)
    change Array (Tree α level) at tree
    rw [row_branch] at small ⊢
    rw [checkedSegmentCount, ← Array.foldlM_toList, counts _ _ (by rwa [Nat.zero_add]),
      Nat.zero_add]

end Tree

def Sequence.checkedSegmentCount (s : Sequence α) : Except Fault Nat :=
  match s.root with
  | none => .ok 0
  | some root => root.tree.checkedSegmentCount

theorem Sequence.Valid.checkedSegmentCount_eq {s : Sequence α} (valid : s.Valid)
    (small : s.length < 2 ^ 64) : s.checkedSegmentCount = .ok s.segmentCount := by
  have few := valid.segmentCount_le
  unfold checkedSegmentCount
  unfold segmentCount at few ⊢
  cases root : s.root with
  | none => rfl
  | some root' =>
    simp only [root, Tree.segmentCount_eq_row] at few
    exact root'.tree.checkedSegmentCount_eq (Nat.lt_of_le_of_lt few small)

end Segmented
