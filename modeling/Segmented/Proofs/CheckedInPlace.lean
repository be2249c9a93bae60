import Segmented.Proofs.CheckedPath
import Segmented.Proofs.Refill

/-! Single elements of a sequence and runs of them, read and changed in place with every check that
is made on the way. -/

namespace Segmented.Sequence

variable {α : Type}

/-! ### Single elements -/

def checkedGet? (index : Nat) (s : Sequence α) : Except Fault (Option α) :=
  if index < s.length then
    match s.root with
    | none => .ok none
    | some root => root.tree.checkedGet? s.options index
  else .ok none

/-- The element at a position that nobody doubts. -/
def demand (index : Nat) (s : Sequence α) : Except Fault α := do
  match ← s.checkedGet? index with
  | some x => return x
  | none => throw (.outside index s.length)

def checkedModify (index : Nat) (change : α → α) (s : Sequence α) : Except Fault (Sequence α) :=
  if index < s.length then
    match s.root with
    | none => .ok s
    | some { level, tree } => do
      let tree ← tree.checkedModify s.options change index
      return { s with root := some { level, tree } }
  else .ok s

/-- Exchanges two elements, whose positions have to exist. -/
def checkedExchange (first second : Nat) (s : Sequence α) : Except Fault (Sequence α) :=
  if first < s.length ∧ second < s.length then
    if first = second then
      .ok s
    else
      match s.root with
      | none => .ok s
      | some { level, tree } => do
        let tree ← tree.checkedSwap s.options first second
        return { s with root := some { level, tree } }
  else .error (.outside (max first second) s.length)

/-! ### Runs -/

/-- Exchanges the elements at `count` positions from `position` on with those as far from the other
end. -/
def checkedReverseFrom (length : Nat) : Nat → Nat → Sequence α → Except Fault (Sequence α)
  | 0, _, s => .ok s
  | count + 1, position, s => do
    let last ← Word.sub length 1
    let other ← Word.sub last position
    let s ← s.checkedExchange position other
    checkedReverseFrom length count (position + 1) s

def checkedReverse (s : Sequence α) : Except Fault (Sequence α) := do
  match s.flat? with
  | some items => return (s.refill items.reverse).bump
  | none => return (← checkedReverseFrom s.length (s.length / 2) 0 s).bump

/-- Writes the listed elements over those from `index + offset` on. -/
def checkedOverwrite (index : Nat) : Nat → List α → Sequence α → Except Fault (Sequence α)
  | _, [], s => .ok s
  | offset, x :: rest, s => do
    let position ← Word.add 64 index offset
    let s ← s.checkedModify position fun _ => x
    checkedOverwrite index (offset + 1) rest s

def checkedCopyFrom (source : Array α) (start index count : Nat) (s : Sequence α) :
    Except Fault (Sequence α) := do
  let run ← Row.slice source start (← Word.add 64 start count)
  match s.flat? with
  | some items =>
    let _ ← Row.slice items index (← Word.add 64 index count)
    return s.overwrite index run.toList
  | none => s.checkedOverwrite index 0 run.toList

/-- The target with the elements of `count` positions from `start + offset` on written over its own
from `index + offset` on. -/
def checkedCopyEach (start index : Nat) (s : Sequence α) :
    Nat → Nat → Array α → Except Fault (Array α)
  | _, 0, target => .ok target
  | offset, count + 1, target => do
    let position ← Word.add 64 start offset
    let target := (← s.checkedGet? position).elim target (target.setIfInBounds (index + offset) ·)
    checkedCopyEach start index s (offset + 1) count target

def checkedWriteInto (start index count : Nat) (s : Sequence α) (target : Array α) :
    Except Fault (Array α) := do
  let _ ← Row.slice target index (← Word.add 64 index count)
  match s.flat? with
  | some items =>
    let run ← Row.slice items start (← Word.add 64 start count)
    return target.take index ++ run ++ target.drop (index + count)
  | none => s.checkedCopyEach start index 0 count target

/-- Both checks of a copy into an array, and then the copy. -/
def checkedCopyTo (start : Nat) (target : Array α) (index count : Nat) (s : Sequence α) :
    Except Fault (Except Error (Array α)) :=
  match checkWindow "src_index" start count s.length with
  | .error error => .ok (.error error)
  | .ok () =>
    match checkWindow "dest_index" index count target.size with
    | .error error => .ok (.error error)
    | .ok () => do return .ok (← s.checkedWriteInto start index count target)

/-! ### No fault -/

variable {s : Sequence α} {index first second start count : Nat}

theorem checkedGet?_eq (small : s.length < 2 ^ 64) (index : Nat) :
    s.checkedGet? index = .ok (s.get? index) := by
  unfold checkedGet? get?
  split
  · rename_i inside
    cases s.root with
    | none => rfl
    | some root => exact root.tree.checkedGet?_eq (Nat.lt_trans inside small)
  · rfl

theorem Valid.demand_eq (valid : s.Valid) (small : s.length < 2 ^ 64)
    (inside : index < s.toArray.size) : s.demand index = .ok s.toArray[index] := by
  have here : s.toList[index]? = some s.toArray[index] := by simp [toList, inside]
  unfold demand
  rw [checkedGet?_eq small, valid.get?_eq, here]
  rfl

theorem Valid.checkedModify_eq (valid : s.Valid) (small : s.length < 2 ^ 64) (index : Nat)
    (change : α → α) : s.checkedModify index change = .ok (s.modify index change) := by
  unfold checkedModify
  split
  · rename_i inside
    unfold modify detach
    cases here : s.root with
    | none => exact congrArg (fun root => Except.ok { s with root }) here
    | some root =>
      dsimp only
      rw [root.tree.checkedModify_eq (Nat.lt_trans inside small)]
      rfl
  · rename_i outside
    have none : s.get? index = none := if_neg outside
    rw [valid.modify_of_outside none]

theorem Valid.exchange_self (valid : s.Valid) (inside : index < s.length) :
    s.exchange index index = s := by
  have inside' : index < s.toArray.size := Nat.lt_of_lt_of_eq inside valid.length_eq
  have same : s.toArray.swap index index inside' inside' = s.toArray := by
    apply Array.ext'
    simp [Array.swap_def]
  rw [valid.exchange_eq_refill inside' inside', same, valid.refill_toArray]

theorem Valid.checkedExchange_eq (valid : s.Valid) (small : s.length < 2 ^ 64)
    (inside : first < s.length) (inside' : second < s.length) :
    s.checkedExchange first second = .ok (s.exchange first second) := by
  unfold checkedExchange
  rw [if_pos ⟨inside, inside'⟩]
  split
  · rename_i same
    rw [← same, valid.exchange_self inside]
  · cases valid with
    | empty root zero => omega
    | tree root packed total tail =>
      rename_i level tree front last
      have here : tree.get? s.options.segmentCapacity first = some tree.toList[first] :=
        (packed.get?_eq first).trans (List.getElem?_eq_getElem (total ▸ inside))
      have there : tree.get? s.options.segmentCapacity second = some tree.toList[second] :=
        (packed.get?_eq second).trans (List.getElem?_eq_getElem (total ▸ inside'))
      unfold exchange get?
      simp only [root, if_pos inside, if_pos inside', here, there, modify, detach]
      rw [Tree.checkedSwap_eq (by omega) (by omega) here there]
      rfl

/-- The exchange in a sequence whose elements have been written anew. -/
theorem Valid.checkedExchange_refill (valid : s.Valid) (small : s.length < 2 ^ 64)
    {contents : Array α} (enough : contents.size = s.length) (inside : first < contents.size)
    (inside' : second < contents.size) :
    (s.refill contents).checkedExchange first second =
      .ok (s.refill (contents.swap first second inside inside')) := by
  have valid' := (follows_refill valid enough).2.valid
  have same := valid.toArray_refill enough
  have length : (s.refill contents).length = contents.size := by
    rw [valid'.length_eq, (follows_refill valid enough).2.elements, Array.length_toList]
  rw [valid'.checkedExchange_eq (by omega) (by omega) (by omega),
    valid'.exchange_eq_refill (by rw [same]; exact inside) (by rw [same]; exact inside')]
  simp only [same]
  rw [valid.refill_refill enough (Array.size_swap.trans enough)]

/-! ### Reversal -/

/-- The first items, as many as the position tells, have changed places with the last ones. -/
structure Turned (items contents : Array α) (position : Nat) : Prop where
  size : contents.size = items.size
  getElem? : ∀ other < items.size, contents[other]? =
    if other < position ∨ items.size ≤ other + position then items[items.size - 1 - other]?
    else items[other]?

theorem Turned.refl (items : Array α) : Turned items items 0 where
  size := rfl
  getElem? other inside := by rw [if_neg (by omega)]

theorem Turned.step {items contents : Array α} {position mirrored : Nat}
    (turned : Turned items contents position) (mirror : mirrored = items.size - 1 - position)
    (room : 2 * (position + 1) ≤ items.size) (inside : position < contents.size)
    (inside' : mirrored < contents.size) :
    Turned items (contents.swap position mirrored inside inside') (position + 1) where
  size := Array.size_swap.trans turned.size
  getElem? other within := by
    have here := turned.getElem? position (by omega)
    have there := turned.getElem? mirrored (by omega)
    rw [if_neg (by omega), Array.getElem?_eq_getElem inside] at here
    rw [if_neg (by omega), Array.getElem?_eq_getElem inside'] at there
    rw [Array.getElem?_swap]
    by_cases high : mirrored = other
    · rw [if_pos high, if_pos (by omega), here]
      congr 1
      omega
    rw [if_neg high]
    by_cases low : position = other
    · rw [if_pos low, if_pos (by omega), there, mirror, low]
    rw [if_neg low, turned.getElem? other within]
    by_cases done : other < position ∨ items.size ≤ other + position
    · rw [if_pos done, if_pos (by omega)]
    · rw [if_neg done, if_neg (by omega)]

theorem Turned.eq_reverse {items contents : Array α} {position : Nat}
    (turned : Turned items contents position) (half : position = items.size / 2) :
    contents = items.reverse := by
  refine Array.ext_getElem? fun other => ?_
  by_cases within : other < items.size
  · rw [turned.getElem? other within, Array.getElem?_reverse within]
    split
    · rfl
    · congr 1
      omega
  · rw [Array.getElem?_eq_none (by rw [turned.size]; omega),
      Array.getElem?_eq_none (by rw [Array.size_reverse]; omega)]

theorem Valid.checkedReverseFrom_eq (valid : s.Valid) (small : s.length < 2 ^ 64)
    {contents : Array α} {position count : Nat} (turned : Turned s.toArray contents position)
    (half : position + count = s.length / 2) :
    checkedReverseFrom s.length count position (s.refill contents) =
      .ok (s.refill s.toArray.reverse) := by
  have length : s.length = s.toArray.size := valid.length_eq
  have size := turned.size
  induction count generalizing contents position with
  | zero => rw [turned.eq_reverse (by omega), checkedReverseFrom]
  | succ count ih =>
    rw [checkedReverseFrom, Word.sub_eq (by omega)]
    dsimp only [bind, Except.bind]
    rw [Word.sub_eq (by omega)]
    dsimp only
    have inside : position < contents.size := by omega
    have inside' : s.length - 1 - position < contents.size := by omega
    rw [valid.checkedExchange_refill small (by omega) inside inside']
    have turned' := turned.step (by rw [length]) (by omega) inside inside'
    exact ih turned' (by omega) turned'.size

theorem Valid.checkedReverse_eq (valid : s.Valid) (small : s.length < 2 ^ 64) :
    s.checkedReverse = .ok s.reverse := by
  unfold checkedReverse reverse
  cases flat : s.flat? with
  | some items =>
    rw [flat?_eq_toArray flat]
    rfl
  | none =>
    have loop := valid.checkedReverseFrom_eq small (.refl _) (Nat.zero_add (s.length / 2))
    rw [valid.refill_toArray] at loop
    dsimp only
    rw [loop]
    rfl

/-! ### Copies -/

theorem Valid.checkedOverwrite_eq (valid : s.Valid) (small : s.length < 2 ^ 64) {offset : Nat}
    {xs : List α} (inside : index + offset + xs.length ≤ s.length) :
    s.checkedOverwrite index offset xs = .ok (s.overwrite (index + offset) xs) := by
  induction xs generalizing s offset with
  | nil => rfl
  | cons x rest ih =>
    rw [List.length_cons] at inside
    have follows := (follows_modify valid (index + offset) fun _ => x).2
    have length : (s.modify (index + offset) fun _ => x).length = s.length := by
      rw [follows.valid.length_eq, follows.elements, List.length_modify, ← valid.length_eq]
    rw [checkedOverwrite, overwrite, Word.add_eq (by omega)]
    dsimp only [bind, Except.bind]
    rw [valid.checkedModify_eq small]
    exact ih follows.valid (by omega) (by omega)

theorem Valid.checkedCopyFrom_eq (valid : s.Valid) (small : s.length < 2 ^ 64) {source : Array α}
    (small' : source.size < 2 ^ 64) (fits : start + count ≤ source.size)
    (inside : index + count ≤ s.length) :
    s.checkedCopyFrom source start index count = .ok (s.copyFrom source start index count) := by
  unfold checkedCopyFrom copyFrom
  rw [Word.add_eq (by omega)]
  dsimp only [bind, Except.bind]
  rw [Row.slice_eq (by omega) fits]
  dsimp only
  cases flat : s.flat? with
  | some items =>
    have size : items.size = s.length := by
      rw [flat?_eq_toArray flat, valid.length_eq]
      rfl
    dsimp only
    rw [Word.add_eq (by omega)]
    dsimp only
    rw [Row.slice_eq (by omega) (by omega)]
    rfl
  | none =>
    have length : (source.extract start (start + count)).toList.length = count := by
      simp
      omega
    exact valid.checkedOverwrite_eq small (by rw [length]; omega)

theorem checkedCopyEach_eq (small : s.length < 2 ^ 64) {offset : Nat} {target : Array α}
    (inside : start + offset + count ≤ s.length) :
    checkedCopyEach start index s offset count target =
      .ok (s.copyEach (start + offset) (index + offset) count target) := by
  induction count generalizing offset target with
  | zero => rfl
  | succ count ih =>
    rw [checkedCopyEach, copyEach, Word.add_eq (by omega)]
    dsimp only [bind, Except.bind]
    rw [checkedGet?_eq small]
    dsimp only
    rw [ih (by omega)]
    cases s.get? (start + offset) <;> rfl

theorem Valid.checkedWriteInto_eq (valid : s.Valid) (small : s.length < 2 ^ 64) {target : Array α}
    (small' : target.size < 2 ^ 64) (inside : start + count ≤ s.length)
    (within : index + count ≤ target.size) :
    s.checkedWriteInto start index count target = .ok (s.writeInto start index count target) := by
  unfold checkedWriteInto writeInto
  rw [Word.add_eq (by omega)]
  dsimp only [bind, Except.bind]
  rw [Row.slice_eq (by omega) within]
  dsimp only
  cases flat : s.flat? with
  | some items =>
    have size : items.size = s.length := by
      rw [flat?_eq_toArray flat, valid.length_eq]
      rfl
    dsimp only
    rw [Word.add_eq (by omega)]
    dsimp only
    rw [Row.slice_eq (by omega) (by omega)]
    rfl
  | none => exact checkedCopyEach_eq small inside

theorem Valid.checkedCopyTo_eq (valid : s.Valid) (small : s.length < 2 ^ 64) {target : Array α}
    (small' : target.size < 2 ^ 64) (start index count : Nat) :
    s.checkedCopyTo start target index count = .ok (s.copyTo start target index count) := by
  unfold checkedCopyTo copyTo
  rw [checkWindow_eq small, checkWindow_eq small']
  cases first : checkSpan "src_index" start count s.length with
  | error fault => rfl
  | ok _ =>
    cases second : checkSpan "dest_index" index count target.size with
    | error fault => rfl
    | ok _ =>
      have inside := le_of_checkSpan first
      have within := le_of_checkSpan second
      dsimp only
      rw [valid.checkedWriteInto_eq small small' inside within, valid.writeInto_eq inside within]
      rfl

end Segmented.Sequence
