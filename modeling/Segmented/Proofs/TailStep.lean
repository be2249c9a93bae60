import Segmented.Proofs.Shape
import Segmented.Sequence.Resize

/-! Changes at the end of a tree are changes of its last segment, or the opening of one behind it:
the depot is used by that segment alone. -/

namespace Segmented.Tree

variable {σ α : Type} [Allocator σ α] {level : Nat} {options : Options} {tree : Tree α level}
  {front : List (Buffer α)} {last : Buffer α}

/-- A new segment for an element that has none to go to. -/
def openWith (options : Options) (asked : Nat) (x : α) : Depot.Step σ (Buffer α) := do
  let next : Buffer α ← Buffer.start options asked
  next.push options x

/-- A new segment for copies of an element. -/
def openFilled (options : Options) (x : α) (count : Nat) : Depot.Step σ (Buffer α) := do
  let next : Buffer α ← Buffer.start options count
  next.fill options (min count options.segmentCapacity) x

theorem Shaped.push_of_room (shaped : tree.Shaped) (parts : tree.row = front ++ [last])
    (room : last.isFull options = false) (x : α) :
    (tree.push options x : Depot.Step σ _) = do
      let buffer ← last.push options x
      return (tree.setLast buffer, none) := by
  induction level generalizing front with
  | zero =>
    obtain ⟨-, rfl⟩ := eq_of_row_segment parts
    simp [Tree.push, room, Tree.setLast]
  | succ level ih =>
    obtain ⟨before, child, rfl, -, -, inner⟩ := shaped
    obtain ⟨innerFront, split, rfl⟩ := inner.exists_front parts
    simp only [Tree.push, splitLast?_push, ih inner split, bind_assoc, pure_bind, Tree.setLast,
      adopt]

theorem Shaped.push_of_full (shaped : tree.Shaped) (parts : tree.row = front ++ [last])
    (full : last.isFull options = true) (x : α) :
    (tree.push options x : Depot.Step σ _) = do
      let next ← openWith options overflowCapacity x
      return tree.grow next := by
  induction level generalizing front with
  | zero =>
    obtain ⟨-, rfl⟩ := eq_of_row_segment parts
    simp [Tree.push, full, Tree.grow, openWith]
  | succ level ih =>
    obtain ⟨before, child, rfl, -, -, inner⟩ := shaped
    obtain ⟨innerFront, split, rfl⟩ := inner.exists_front parts
    simp only [Tree.push, splitLast?_push, ih inner split, bind_assoc, pure_bind, Tree.grow]

theorem Shaped.pop_eq (shaped : tree.Shaped) (parts : tree.row = front ++ [last]) :
    (tree.pop options : Depot.Step σ _) = do
      let (removed, buffer) ← last.pop options
      return (removed, tree.trimLast buffer) := by
  induction level generalizing front with
  | zero =>
    obtain ⟨-, rfl⟩ := eq_of_row_segment parts
    simp [Tree.pop, Tree.trimLast]
  | succ level ih =>
    obtain ⟨before, child, rfl, -, -, inner⟩ := shaped
    obtain ⟨innerFront, split, rfl⟩ := inner.exists_front parts
    simp only [Tree.pop, splitLast?_push, ih inner split, bind_assoc, pure_bind, Tree.trimLast]

theorem Shaped.fill_of_room (shaped : tree.Shaped) (parts : tree.row = front ++ [last])
    (room : last.isFull options = false) (x : α) (count : Nat) :
    (tree.fill options x count : Depot.Step σ _) = do
      let taken := min count (options.segmentCapacity - last.size)
      let buffer ← last.fill options taken x
      return (tree.setLast buffer, none, count - taken) := by
  induction level generalizing front with
  | zero =>
    obtain ⟨-, rfl⟩ := eq_of_row_segment parts
    have space : 0 < options.segmentCapacity - last.size := by
      simpa [Buffer.isFull, Nat.sub_pos_iff_lt] using room
    simp [Tree.fill, space, Tree.setLast]
  | succ level ih =>
    obtain ⟨before, child, rfl, -, -, inner⟩ := shaped
    obtain ⟨innerFront, split, rfl⟩ := inner.exists_front parts
    simp only [Tree.fill, splitLast?_push, ih inner split, bind_assoc, pure_bind, Tree.setLast,
      adopt]

theorem Shaped.fill_of_full (shaped : tree.Shaped) (parts : tree.row = front ++ [last])
    (full : last.isFull options = true) (x : α) {count : Nat} (some : count ≠ 0) :
    (tree.fill options x count : Depot.Step σ _) = do
      let next ← openFilled options x count
      return ((tree.grow next).1, (tree.grow next).2,
        count - min count options.segmentCapacity) := by
  induction level generalizing front with
  | zero =>
    obtain ⟨-, rfl⟩ := eq_of_row_segment parts
    have none : ¬ 0 < options.segmentCapacity - last.size := by
      simpa [Buffer.isFull, Nat.sub_eq_zero_iff_le] using full
    simp [Tree.fill, none, some, Tree.grow, openFilled]
  | succ level ih =>
    obtain ⟨before, child, rfl, -, -, inner⟩ := shaped
    obtain ⟨innerFront, split, rfl⟩ := inner.exists_front parts
    simp only [Tree.fill, splitLast?_push, ih inner split, bind_assoc, pure_bind, Tree.grow]

end Segmented.Tree
