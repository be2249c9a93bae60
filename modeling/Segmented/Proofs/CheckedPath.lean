import Segmented.Proofs.Fault
import Segmented.Proofs.Refusal
import Segmented.Proofs.WellFormed

/-! The way of an index into a tree, in machine words: the child is found by a shift, and what is
left of the index by shifting back and taking the difference. -/

namespace Segmented.Tree

variable {α : Type} {level : Nat} {options : Options}

/-- The places by which an index is shifted to find one of the children of this level. -/
def stepBase (options : Options) (level : Nat) : Nat := options.segmentCapacity.log2 + 16 * level

theorem span_eq_two_pow (options : Options) (level : Nat) :
    span options.segmentCapacity level = 2 ^ stepBase options level := by
  obtain ⟨-, -, power⟩ := options.supported
  rw [Nat.one_shiftLeft] at power
  conv_lhs => rw [← power]
  exact span_two_pow _ level

/-- The position at which a child begins. -/
def baseOf (options : Options) (level child : Nat) : Except Fault Nat :=
  if child = 0 then .ok 0 else Word.shiftLeft child (stepBase options level)

/-- The child that an index leads to, and the index in that child. -/
def split (options : Options) (level index : Nat) : Except Fault (Nat × Nat) := do
  let distance := stepBase options level
  let child := if distance < 64 then index >>> distance else 0
  return (child, ← Word.sub index (← baseOf options level child))

theorem baseOf_eq {child : Nat} (small : child * span options.segmentCapacity level < 2 ^ 64) :
    baseOf options level child = .ok (child * span options.segmentCapacity level) := by
  unfold baseOf
  split
  · rename_i first
    rw [first, Nat.zero_mul]
  · rename_i later
    rw [span_eq_two_pow] at small ⊢
    refine Word.shiftLeft_eq ((Nat.pow_lt_pow_iff_right (by decide : 1 < 2)).mp ?_) small
    exact Nat.lt_of_le_of_lt (Nat.le_mul_of_pos_left _ (Nat.pos_of_ne_zero later)) small

/-- An index of one word is split without a fault, however wide the children are. -/
theorem split_eq {index : Nat} (small : index < 2 ^ 64) :
    split options level index = .ok (index / span options.segmentCapacity level,
      index % span options.segmentCapacity level) := by
  have child : (if stepBase options level < 64 then index >>> stepBase options level else 0) =
      index / span options.segmentCapacity level := by
    rw [span_eq_two_pow, ← Nat.shiftRight_eq_div_pow]
    split
    · rfl
    · rename_i far
      rw [Nat.shiftRight_eq_div_pow]
      refine (Nat.div_eq_of_lt (Nat.lt_of_lt_of_le small ?_)).symm
      exact Nat.pow_le_pow_right (by decide) (Nat.not_lt.mp far)
  have below : index / span options.segmentCapacity level * span options.segmentCapacity level ≤
      index := Nat.div_mul_le_self ..
  unfold split
  dsimp only
  rw [child, baseOf_eq (Nat.lt_of_le_of_lt below small)]
  change (do return (_, ← Word.sub index _) : Except Fault (Nat × Nat)) = _
  rw [Word.sub_eq below]
  rw [Nat.mod_eq_sub_div_mul]
  rfl

/-! ### Single elements -/

def checkedGet? (options : Options) : {level : Nat} → Tree α level → Nat → Except Fault (Option α)
  | 0, (buffer : Buffer α), index => return buffer.items[index]?
  | level + 1, (children : Array (Tree α level)), index => do
    let (child, offset) ← split options level index
    match children[child]? with
    | none => return none
    | some tree => checkedGet? options tree offset

theorem checkedGet?_eq (tree : Tree α level) {index : Nat} (small : index < 2 ^ 64) :
    tree.checkedGet? options index = .ok (tree.get? options.segmentCapacity index) := by
  induction level generalizing index with
  | zero => rfl
  | succ level ih =>
    change Array (Tree α level) at tree
    simp only [checkedGet?, split_eq small, get?]
    change (match tree[index / span options.segmentCapacity level]? with
      | none => _
      | some child => checkedGet? options child _) = _
    cases tree[index / span options.segmentCapacity level]? with
    | none => rfl
    | some child => exact ih child (Nat.lt_of_le_of_lt (Nat.mod_le ..) small)

/-- Changes the element at `index` in place, if there is one. -/
def checkedModify (options : Options) (change : α → α) :
    {level : Nat} → Nat → Tree α level → Except Fault (Tree α level)
  | 0, index, (buffer : Buffer α) =>
    return ({ buffer with items := buffer.items.modify index change } : Buffer α)
  | level + 1, index, (children : Array (Tree α level)) => do
    let (child, offset) ← split options level index
    match children[child]? with
    | none => return children
    | some tree => return children.setIfInBounds child (← checkedModify options change offset tree)

theorem setIfInBounds_eq_modify {τ : Type} {row : Array τ} {position : Nat} {item : τ}
    (here : row[position]? = some item) (change : τ → τ) :
    row.setIfInBounds position (change item) = row.modify position change := by
  apply Array.ext'
  rw [Array.toList_setIfInBounds, Array.toList_modify]
  rw [← Array.getElem?_toList] at here
  refine List.ext_getElem? fun other => ?_
  rw [List.getElem?_set', List.getElem?_modify]
  by_cases same : position = other
  · subst same
    simp [here]
  · simp [same]

theorem checkedModify_eq (tree : Tree α level) {index : Nat} (small : index < 2 ^ 64)
    (change : α → α) :
    tree.checkedModify options change index =
      .ok (tree.modify options.segmentCapacity change index) := by
  induction level generalizing index with
  | zero => rfl
  | succ level ih =>
    change Array (Tree α level) at tree
    simp only [checkedModify, split_eq small, modify]
    change (match tree[index / span options.segmentCapacity level]? with
      | none => _
      | some child => do return tree.setIfInBounds _ (← checkedModify options change _ child)) = _
    cases here : tree[index / span options.segmentCapacity level]? with
    | none => exact congrArg Except.ok (modify_of_getElem?_eq_none here _).symm
    | some child =>
      dsimp only
      rw [ih child (Nat.lt_of_le_of_lt (Nat.mod_le ..) small)]
      exact congrArg Except.ok (setIfInBounds_eq_modify here fun child =>
        modify options.segmentCapacity change _ child)

/-! ### Two elements -/

/-- Exchanges the elements at two positions. In a branch the children are reached by dividing the
row in front of the later one of them. -/
def checkedSwap (options : Options) :
    {level : Nat} → Nat → Nat → Tree α level → Except Fault (Tree α level)
  | 0, first, second, (buffer : Buffer α) => do
    return ({ buffer with items := ← Row.swap buffer.items first second } : Buffer α)
  | level + 1, first, second, (children : Array (Tree α level)) => do
    let (child, offset) ← split options level first
    let (child', offset') ← split options level second
    if child = child' then
      let tree ← Row.read children child
      return children.setIfInBounds child (← checkedSwap options offset offset' tree)
    else if child < child' then
      exchangeAcross children child offset child' offset'
    else
      exchangeAcross children child' offset' child offset
where
  exchangeAcross {level : Nat} (children : Array (Tree α level)) (low offset high offset' : Nat) :
      Except Fault (Array (Tree α level)) := do
    let left ← Row.slice children 0 high
    let right ← Row.slice children high children.size
    let tree ← Row.read left low
    let tree' ← Row.read right 0
    match ← checkedGet? options tree offset, ← checkedGet? options tree' offset' with
    | some x, some y =>
      let tree ← checkedModify options (fun _ => y) offset tree
      let tree' ← checkedModify options (fun _ => x) offset' tree'
      return (children.setIfInBounds low tree).setIfInBounds high tree'
    | _, _ => return children

theorem exists_child_of_get? {capacity index : Nat} {children : Array (Tree α level)} {x : α}
    (here : @get? α capacity (level + 1) children index = some x) :
    ∃ child, children[index / span capacity level]? = some child ∧
      child.get? capacity (index % span capacity level) = some x := by
  rw [get?] at here
  cases found : children[index / span capacity level]? with
  | none => simp [found] at here
  | some child => exact ⟨child, rfl, by simpa [found] using here⟩

theorem modify_modify_of_eq {τ : Type} (row : Array τ) (position : Nat) (change change' : τ → τ) :
    (row.modify position change).modify position change' =
      row.modify position (change' ∘ change) := by
  refine Array.ext_getElem? fun other => ?_
  rw [Array.getElem?_modify, Array.getElem?_modify, Array.getElem?_modify]
  split
  · rw [Option.map_map]
  · rfl

theorem modify_modify_of_ne {τ : Type} (row : Array τ) {position position' : Nat}
    (different : position ≠ position') (change change' : τ → τ) :
    (row.modify position change).modify position' change' =
      (row.modify position' change').modify position change := by
  refine Array.ext_getElem? fun other => ?_
  simp only [Array.getElem?_modify]
  by_cases first : position = other
  · have second : position' ≠ other := fun same => different (first.trans same.symm)
    simp only [first, second, if_true, if_false]
  · simp only [first, if_false]

theorem swap_eq_modify {items : Array α} {first second : Nat} {x y : α}
    (here : items[first]? = some x) (there : items[second]? = some y) :
    Row.swap items first second =
      .ok ((items.modify first fun _ => y).modify second fun _ => x) := by
  obtain ⟨inside, rfl⟩ := Array.getElem?_eq_some_iff.mp here
  obtain ⟨inside', rfl⟩ := Array.getElem?_eq_some_iff.mp there
  rw [Row.swap_eq inside inside', Array.swap_def]
  refine congrArg Except.ok (Array.ext' ?_)
  rw [Array.toList_modify, Array.toList_modify, Sequence.modify_const, Sequence.modify_const]
  simp

theorem exchangeAcross_eq {children : Array (Tree α level)} {low offset high offset' : Nat}
    {tree tree' : Tree α level} {x y : α} (order : low < high) (small : offset < 2 ^ 64)
    (small' : offset' < 2 ^ 64) (here : children[low]? = some tree)
    (there : children[high]? = some tree')
    (found : tree.get? options.segmentCapacity offset = some x)
    (found' : tree'.get? options.segmentCapacity offset' = some y) :
    checkedSwap.exchangeAcross options children low offset high offset' =
      .ok ((children.modify low fun child =>
          child.modify options.segmentCapacity (fun _ => y) offset).modify high fun child =>
        child.modify options.segmentCapacity (fun _ => x) offset') := by
  obtain ⟨inside, -⟩ := Array.getElem?_eq_some_iff.mp there
  have left : (children.extract 0 high)[low]? = some tree := by
    rw [Array.getElem?_extract, if_pos (by omega), Nat.zero_add, here]
  have right : (children.extract high children.size)[0]? = some tree' := by
    rw [Array.getElem?_extract, if_pos (by omega), Nat.add_zero, there]
  have there' : (children.modify low fun child =>
      child.modify options.segmentCapacity (fun _ => y) offset)[high]? = some tree' := by
    rw [Array.getElem?_modify, if_neg (by omega), there]
  unfold checkedSwap.exchangeAcross
  rw [Row.slice_eq (Nat.zero_le _) (by omega), Row.slice_eq (by omega) (Nat.le_refl _)]
  dsimp only [bind, Except.bind]
  rw [Row.read_eq left, Row.read_eq right]
  dsimp only
  rw [checkedGet?_eq tree small, checkedGet?_eq tree' small', found, found']
  dsimp only
  rw [checkedModify_eq tree small, checkedModify_eq tree' small']
  dsimp only
  rw [setIfInBounds_eq_modify here fun child =>
      child.modify options.segmentCapacity (fun _ => y) offset,
    setIfInBounds_eq_modify there' fun child =>
      child.modify options.segmentCapacity (fun _ => x) offset']
  rfl

theorem checkedSwap_eq {tree : Tree α level} {first second : Nat} {x y : α}
    (small : first < 2 ^ 64) (small' : second < 2 ^ 64)
    (here : tree.get? options.segmentCapacity first = some x)
    (there : tree.get? options.segmentCapacity second = some y) :
    tree.checkedSwap options first second =
      .ok ((tree.modify options.segmentCapacity (fun _ => y) first).modify
        options.segmentCapacity (fun _ => x) second) := by
  induction level generalizing first second with
  | zero =>
    change Buffer α at tree
    exact congrArg (fun swapped => do return { tree with items := ← swapped })
      (swap_eq_modify here there)
  | succ level ih =>
    change Array (Tree α level) at tree
    obtain ⟨child, inRow, found⟩ := exists_child_of_get? here
    obtain ⟨child', inRow', found'⟩ := exists_child_of_get? there
    have rest : first % span options.segmentCapacity level < 2 ^ 64 :=
      Nat.lt_of_le_of_lt (Nat.mod_le ..) small
    have rest' : second % span options.segmentCapacity level < 2 ^ 64 :=
      Nat.lt_of_le_of_lt (Nat.mod_le ..) small'
    simp only [checkedSwap, split_eq small, split_eq small', modify]
    dsimp only [bind, Except.bind]
    -- Within one child the exchange recurs; between two, the row is cut before the higher one.
    by_cases same : first / span options.segmentCapacity level =
        second / span options.segmentCapacity level
    · refine (if_pos same).trans ?_
      rw [← same] at inRow' ⊢
      obtain rfl := Option.some.inj (inRow.symm.trans inRow')
      rw [Row.read_eq inRow]
      dsimp only
      rw [ih rest rest' found found', modify_modify_of_eq]
      exact congrArg Except.ok (setIfInBounds_eq_modify inRow fun child =>
        modify options.segmentCapacity (fun _ => x) _
          (modify options.segmentCapacity (fun _ => y) _ child))
    · refine (if_neg same).trans ?_
      by_cases order : first / span options.segmentCapacity level <
          second / span options.segmentCapacity level
      · refine (if_pos order).trans ?_
        exact exchangeAcross_eq order rest rest' inRow inRow' found found'
      · refine (if_neg order).trans ?_
        rw [modify_modify_of_ne _ same]
        exact exchangeAcross_eq (by omega) rest' rest inRow' inRow found' found

end Segmented.Tree
