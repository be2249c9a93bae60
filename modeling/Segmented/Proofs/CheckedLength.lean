import Segmented.Proofs.CheckedCarry

/-! The operations that change the length of a sequence, with every check they make on the way: the
length is counted in words of 64 bits, and the tree is never asked for what it cannot do. -/

namespace Segmented

variable {σ α : Type} [Allocator σ α]

def Root.checkedSingleton (options : Options) (capacity : Nat) (x : α) : Checked σ (Root α) := do
  let segment : Buffer α ← Checked.lift (Buffer.start options capacity)
  let segment ← segment.checkedPush options x
  return { level := 0, tree := segment }

namespace Sequence

/-! ### Growth -/

def checkedPushDeep (x : α) (s : Sequence α) : Checked σ (Sequence α) := do
  let root ← match s.root with
    | none => Root.checkedSingleton s.options s.firstCapacity x
    | some root => root.checkedPush s.options s.length x
  let length ← Word.add 64 s.length 1
  return { s with root := some root, length }.bump.refreshTail

def checkedPush (x : α) (s : Sequence α) : Checked σ (Sequence α) := do
  if s.tailSegment?.any fun buffer => !buffer.isFull s.options then
    let grown ← s.updateTail fun buffer => buffer.checkedPush s.options x
    let length ← Word.add 64 s.length 1
    return { grown with length }.bump
  else
    s.checkedPushDeep x

def checkedExtend (xs : List α) (s : Sequence α) : Checked σ (Sequence α) :=
  xs.foldlM (fun s x => s.checkedPush x) s

def checkedCopy (s : Sequence α) : Checked σ (Sequence α) :=
  checkedExtend s.toList { options := s.options, firstCapacity := s.firstCapacity }

def checkedEnsure (length : Nat) (x : α) (s : Sequence α) : Checked σ (Sequence α) := do
  if length ≤ s.length then
    return s
  else
    let missing ← Word.sub length s.length
    let root ← match s.root with
      | none => Checked.lift (Root.start s.options missing)
      | some root => pure root
    let root ← root.checkedFill s.options s.length x missing
    return { s with root := some root, length }.bump.refreshTail

/-! ### Insertion and removal -/

def checkedInsertDeep (index : Nat) (x : α) (root : Root α) (s : Sequence α) :
    Checked σ (Sequence α) := do
  match root with
  | { level, tree } =>
    let (tree, carry) ← tree.checkedInsert s.options index x
    let root ← match carry with
      | none => pure { level, tree }
      | some carry => Root.checkedPush s.options s.length carry { level, tree }
    let length ← Word.add 64 s.length 1
    return { s with root := some root, length }.bump.refreshTail

def checkedInsert (index : Nat) (x : α) (s : Sequence α) : Checked σ (Sequence α) := do
  if index = s.length then
    s.checkedPush x
  else
    match s.root with
    | none => throw (.outside index s.length)
    | some { level := 0, tree := (buffer : Buffer α) } =>
      if buffer.isFull s.options then
        checkedInsertDeep index x { level := 0, tree := buffer } { s with root := none }
      else
        let buffer ← buffer.checkedInsert s.options index x
        let length ← Word.add 64 s.length 1
        return { s with root := some { level := 0, tree := buffer }, length }.bump
    | some root => checkedInsertDeep index x root { s with root := none }

def checkedRemoveAt (index : Nat) (s : Sequence α) : Checked σ (Option α × Sequence α) := do
  match s.root with
  | none => throw (.outside index s.length)
  | some { level, tree } =>
    let (removed, tree) ← tree.checkedRemoveAt s.options index none
    let length ← Word.sub s.length 1
    let s ← Checked.lift ({ s with root := some { level, tree }, length }.bump).settle
    return (removed, s)

def checkedPopDeep (s : Sequence α) : Checked σ (Option α × Sequence α) := do
  match s.root with
  | none => return (none, s)
  | some { level, tree } =>
    let (removed, tree) ← tree.checkedPop s.options
    let s := { s with root := some { level, tree } }
    match removed with
    | none => return (none, s)
    | some x =>
      let length ← Word.sub s.length 1
      let s ← Checked.lift ({ s with length }.bump).settle
      return (some x, s)

def checkedPop (s : Sequence α) : Checked σ (Option α × Sequence α) := do
  if s.length = 0 then
    return (none, s)
  else if s.tailSegment?.any fun buffer => 1 < buffer.size then
    let removed := s.last?
    let shorter ← s.updateTail fun buffer => pure buffer.popKeeping.2
    let length ← Word.sub s.length 1
    return (removed, { shorter with length }.bump)
  else
    s.checkedPopDeep

def checkedTruncate (length : Nat) (s : Sequence α) : Checked σ (Sequence α) := do
  if s.length ≤ length then
    return s
  else if length = 0 then
    Checked.lift s.clear
  else
    match s.root with
    | none => return s
    | some { level := 0, tree := (buffer : Buffer α) } =>
      let buffer ← Checked.lift (buffer.truncate s.options length)
      Checked.lift ({ s with root := some { level := 0, tree := buffer }, length }.bump).settle
    | some { level := level + 1, tree } =>
      let tree ← tree.checkedPopMany s.options (s.length - length)
      Checked.lift ({ s with root := some { level := level + 1, tree }, length }.bump).settle

def checkedResize (length : Nat) (x : α) (s : Sequence α) : Checked σ (Sequence α) :=
  if s.length < length then s.checkedEnsure length x else s.checkedTruncate length

variable [LawfulAllocator σ α] {s : Sequence α}

open Checked (Agrees agrees_lift agrees_pure)
open Depot (Keeps)

theorem agrees_checkedSingleton (options : Options) (capacity : Nat) (x : α) :
    Agrees (σ := σ) (Root.checkedSingleton options capacity x)
      (Root.singleton options capacity x) := by
  apply (agrees_lift _).bind (Buffer.ensures_start options capacity).keeps
  intro segment started
  have vacant : segment.size = 0 := by rw [Buffer.size, started.1, Array.size_empty]
  refine (Buffer.agrees_checkedPush ?_ x).map fun _ => rfl
  rw [vacant]
  exact options.segmentCapacity_pos

theorem agrees_checkedPushDeep (valid : s.Valid) (small : s.length + 1 < 2 ^ 64) (x : α) :
    Agrees (σ := σ) (s.checkedPushDeep x) (s.pushDeep x) := by
  have length := valid.length_eq
  unfold checkedPushDeep pushDeep detach
  rw [Word.add_eq small]
  cases valid with
  | empty root =>
    simp only [root]
    exact (agrees_checkedSingleton s.options s.firstCapacity x).map fun _ => by rw [liftM_ok_bind]
  | tree root packed total =>
    simp only [root]
    exact (Root.agrees_checkedPush packed (by omega) s.length x).map fun _ => by rw [liftM_ok_bind]

theorem agrees_checkedPush (valid : s.Valid) (small : s.length + 1 < 2 ^ 64) (x : α) :
    Agrees (σ := σ) (s.checkedPush x) (s.push x) := by
  unfold checkedPush push
  dsimp only
  split
  · rename_i spare
    cases valid with
    | empty root zero tail => simp [tailSegment?, tail] at spare
    | tree root packed total tail =>
      rename_i level tree front last
      have room : last.size < s.options.segmentCapacity := by
        simpa [Valid.tailSegment?_eq root packed tail, Buffer.isFull] using spare
      simp only [updateTail_eq root packed tail, bind_assoc, pure_bind]
      rw [Word.add_eq small]
      exact (Buffer.agrees_checkedPush room x).map fun _ => by rw [liftM_ok_bind]
  · exact agrees_checkedPushDeep valid small x

theorem agrees_checkedExtend (valid : s.Valid) {xs : List α}
    (small : s.length + xs.length < 2 ^ 64) :
    Agrees (σ := σ) (s.checkedExtend xs) (s.extend xs) := by
  unfold checkedExtend extend
  induction xs generalizing s with
  | nil => exact agrees_pure _
  | cons x rest ih =>
    rw [List.length_cons] at small
    rw [List.foldlM_cons, List.foldlM_cons]
    apply (agrees_checkedPush valid (by omega) x).bind (ensures_push valid x).keeps
    intro s' follows
    refine ih follows.valid ?_
    rw [follows.valid.length_eq, follows.elements, List.length_append, ← valid.length_eq,
      List.length_singleton]
    omega

theorem agrees_checkedCopy (valid : s.Valid) (small : s.length < 2 ^ 64) :
    Agrees (σ := σ) s.checkedCopy s.copy :=
  agrees_checkedExtend (valid_empty s.options s.firstCapacity) (by
    rw [← valid.length_eq]
    exact (Nat.zero_add _).symm ▸ small)

theorem keeps_start (options : Options) (capacity : Nat) :
    Keeps (Root.start options capacity : Depot.Step σ (Root α)) fun root =>
      (∃ front last, root.tree.Open options.segmentCapacity front last) ∧
        root.tree.toList = [] := by
  refine (Buffer.ensures_start options capacity).keeps.map fun segment started => ?_
  have vacant : segment.toList = [] := by rw [Buffer.toList, started.1]
  have empty : segment.size = 0 := by rw [← Buffer.length_toList, vacant, List.length_nil]
  refine ⟨⟨[], segment, trivial, rfl, fun segment none => absurd none List.not_mem_nil, ?_, ?_⟩,
    vacant⟩
  · omega
  · exact Nat.le_trans (Nat.le_of_eq empty) (Nat.zero_le _)

theorem agrees_checkedEnsure (valid : s.Valid) {length : Nat} (small : length < 2 ^ 64) (x : α) :
    Agrees (σ := σ) (s.checkedEnsure length x) (s.ensure length x) := by
  have total := valid.length_eq
  unfold checkedEnsure ensure
  split
  · exact agrees_pure _
  · rename_i more
    rw [Word.sub_eq (by omega), liftM_ok_bind]
    simp only [detach]
    cases valid with
    | empty root zero tail =>
      simp only [root]
      apply (agrees_lift _).bind (keeps_start s.options (length - s.length))
      rintro ⟨level, tree⟩ ⟨⟨front, last, opened⟩, vacant⟩
      refine (Root.agrees_checkedFill opened ?_ s.length x).map fun _ => rfl
      dsimp only at vacant
      rw [vacant, List.length_nil]
      omega
    | tree root packed same tail =>
      simp only [root, pure_bind]
      refine (Root.agrees_checkedFill packed.opened ?_ s.length x).map fun _ => rfl
      omega

theorem agrees_checkedInsertDeep {level : Nat} {tree : Tree α level} {front : List (Buffer α)}
    {last : Buffer α} {index : Nat} (packed : tree.Packed s.options.segmentCapacity front last)
    (inside : index < tree.toList.length) (total : s.length = tree.toList.length)
    (small : s.length + 1 < 2 ^ 64) (x : α) :
    Agrees (σ := σ) (s.checkedInsertDeep index x { level, tree })
      (s.insertDeep index x { level, tree }) := by
  unfold checkedInsertDeep insertDeep
  apply (packed.agrees_checkedInsert inside (by omega) x).bind
    (Tree.ensures_insert packed inside x).keeps
  rintro ⟨tree', carry⟩ ⟨⟨front', last', packed'⟩, contents⟩
  dsimp only at packed' contents
  rw [Word.add_eq small]
  have length := congrArg List.length contents
  rw [List.length_append, List.length_insertIdx_of_le_length (Nat.le_of_lt inside)] at length
  cases carry with
  | none => exact agrees_pure _
  | some carry =>
    refine (Root.agrees_checkedPush packed' ?_ s.length carry).map fun _ => liftM_ok_bind _ _
    rw [Option.toList_some, List.length_singleton] at length
    omega

theorem agrees_checkedInsert (valid : s.Valid) {index : Nat} (inside : index ≤ s.length)
    (small : s.length + 1 < 2 ^ 64) (x : α) :
    Agrees (σ := σ) (s.checkedInsert index x) (s.insert index x) := by
  unfold checkedInsert insert
  split
  · exact agrees_checkedPush valid small x
  · rename_i before
    cases valid with
    | empty root zero => exact absurd (Nat.le_zero.mp (zero ▸ inside)) (zero ▸ before)
    | tree root packed total tail =>
      rename_i level tree front last
      have within : index < tree.toList.length := by omega
      have deep := agrees_checkedInsertDeep (σ := σ) (s := { s with root := none }) packed within
        total small x
      simp only [detach, root]
      cases level with
      | succ level => exact deep
      | zero =>
        obtain ⟨rfl, rfl⟩ := Tree.eq_of_row_segment packed.parts
        cases room : last.isFull s.options with
        | true => simpa only [room, if_true] using deep
        | false =>
          have size : (@Tree.toList α 0 last).length = last.size := Buffer.length_toList last
          simp only [room, Bool.false_eq_true, if_false]
          rw [Word.add_eq small]
          refine (Buffer.agrees_checkedInsert (Buffer.isFull_eq_false_iff.mp room) ?_ x).map
            fun _ => by rw [liftM_ok_bind]
          omega

theorem agrees_checkedRemoveAt (valid : s.Valid) (small : s.length < 2 ^ 64) {index : Nat}
    (inside : index < s.length) :
    Agrees (σ := σ) (s.checkedRemoveAt index) (s.removeAt index) := by
  unfold checkedRemoveAt removeAt
  cases valid with
  | empty root zero => exact absurd inside (zero ▸ Nat.not_lt_zero index)
  | tree root packed total tail =>
    simp only [detach, root]
    rw [Word.sub_eq (by omega)]
    have removable := packed.removable (σ := σ) (total ▸ inside) (by omega) none
    refine removable.agrees.bind removable.answers fun answer _ => ?_
    rw [liftM_ok_bind]
    exact (agrees_lift _).map fun _ => rfl

theorem agrees_checkedPopDeep (valid : s.Valid) (some : s.length ≠ 0) :
    Agrees (σ := σ) s.checkedPopDeep s.popDeep := by
  unfold checkedPopDeep popDeep
  cases valid with
  | empty root length => exact absurd length some
  | tree root packed =>
    simp only [detach, root]
    rw [Word.sub_eq (by omega)]
    apply packed.shaped.agrees_checkedPop.bind (Tree.ensures_pop packed).keeps
    rintro ⟨removed, tree⟩ -
    cases removed with
    | none => exact agrees_pure _
    | some x =>
      dsimp only
      rw [liftM_ok_bind]
      exact (agrees_lift _).map fun _ => rfl

theorem agrees_checkedPop (valid : s.Valid) : Agrees (σ := σ) s.checkedPop s.pop := by
  unfold checkedPop pop
  split
  · exact agrees_pure _
  · rename_i some
    split
    · rename_i spare
      rw [Word.sub_eq (by omega)]
      cases valid with
      | empty root zero => exact absurd zero some
      | tree root packed total tail =>
        simp only [updateTail_eq root packed tail, pure_bind, liftM_ok_bind]
        exact agrees_pure _
    · exact agrees_checkedPopDeep valid some

theorem agrees_checkedTruncate (valid : s.Valid) (length : Nat) :
    Agrees (σ := σ) (s.checkedTruncate length) (s.truncate length) := by
  unfold checkedTruncate truncate
  split
  · exact agrees_pure _
  split
  · exact agrees_lift _
  · rename_i long some
    cases valid with
    | empty root zero => exact absurd (zero ▸ Nat.zero_le length) long
    | tree root packed total tail =>
      rename_i level tree front last
      simp only [detach, root]
      cases level with
      | zero =>
        have settled := Buffer.ensures_settle (σ := σ) s.options
          { tree with items := tree.items.shrink length }
        exact (agrees_lift _).bind settled.keeps fun _ _ => agrees_lift _
      | succ level =>
        have more : s.length - length < tree.toList.length := by omega
        apply (packed.agrees_checkedPopMany more).bind (Tree.ensures_popMany packed more).keeps
        intro tree' _
        exact agrees_lift _

theorem agrees_checkedResize (valid : s.Valid) {length : Nat} (small : length < 2 ^ 64) (x : α) :
    Agrees (σ := σ) (s.checkedResize length x) (s.resize length x) := by
  unfold checkedResize resize
  split
  · exact agrees_checkedEnsure valid small x
  · exact agrees_checkedTruncate valid length

end Sequence

end Segmented
