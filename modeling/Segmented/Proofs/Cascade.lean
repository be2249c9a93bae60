import Segmented.Proofs.Packed
import Segmented.Proofs.TailStep
import Segmented.Tree.Carry

/-! Insertion and removal in a packed tree. Full segments only hand one element on, without the
depot; what such a cascade comes to is one change of the last segment. -/

namespace Segmented

variable {σ α : Type} [Allocator σ α]

namespace Tree

variable {level capacity : Nat} {options : Options} {tree : Tree α level}
  {front : List (Buffer α)} {last : Buffer α}

/-! ### Complete trees -/

/-- All the segments that the level allows, and all of them full. -/
structure Complete (capacity : Nat) (tree : Tree α level) : Prop where
  shaped : tree.Shaped
  length : tree.row.length = leaves level
  full : ∀ segment ∈ tree.row, segment.Full capacity

theorem Complete.exists_packed (positive : 0 < capacity) (complete : tree.Complete capacity) :
    ∃ front last, tree.Packed capacity front last ∧ last.Full capacity := by
  obtain ⟨front, last, parts⟩ := complete.shaped.exists_last
  have full := complete.full
  rw [parts] at full
  have ends := full last (by simp)
  exact ⟨front, last,
    complete.shaped.packed parts (fun segment member => full segment (by simp [member]))
    (ends.filled positive), ends⟩

theorem Complete.length_toList (complete : tree.Complete capacity) :
    tree.toList.length = span capacity level := by
  rw [toList_eq_row, length_flatMap_of_width fun segment member =>
    (Buffer.length_toList segment).trans (complete.full segment member).size, complete.length,
    span_eq, Nat.mul_comm]

theorem Complete.of_matches {other : Tree α level} (complete : tree.Complete capacity)
    (matched : other.Matches tree) : other.Complete capacity :=
  ⟨matched.shaped, matched.length_row.trans complete.length,
    Buffer.full_of_outlines complete.full matched.outlines⟩

theorem span_pos (positive : 0 < capacity) (level : Nat) : 0 < span capacity level :=
  span_eq capacity level ▸ Nat.mul_pos positive (leaves_pos level)

/-- Rows of complete trees with the same segments, as far as their sizes and storage go. -/
structure Alike (capacity : Nat) (others trees : List (Tree α level)) : Prop where
  length : others.length = trees.length
  complete : ∀ tree ∈ others, tree.Complete capacity
  outlines : (others.flatMap row).map Buffer.outline = (trees.flatMap row).map Buffer.outline

theorem Alike.refl {trees : List (Tree α level)}
    (complete : ∀ tree ∈ trees, tree.Complete capacity) :
    Alike capacity trees trees :=
  ⟨rfl, complete, rfl⟩

theorem Alike.append {others trees others' trees' : List (Tree α level)}
    (first : Alike capacity others trees) (second : Alike capacity others' trees') :
    Alike capacity (others ++ others') (trees ++ trees') where
  length := by rw [List.length_append, List.length_append, first.length, second.length]
  complete tree member :=
    (List.mem_append.mp member).elim (first.complete tree) (second.complete tree)
  outlines := by
    simp only [List.flatMap_append, List.map_append, first.outlines, second.outlines]

theorem Alike.single {other : Tree α level} (complete : tree.Complete capacity)
    (matched : other.Matches tree) : Alike capacity [other] [tree] where
  length := rfl
  complete := by simpa using complete.of_matches matched
  outlines := by simpa using matched.outlines

/-- The last child of a packed branch is packed, and the children before it are complete. -/
theorem Packed.exists_inner {before : Array (Tree α level)} {child : Tree α level}
    (packed : @Packed α (level + 1) capacity (before.push child) front last) :
    ∃ inner, child.Packed capacity inner last ∧ front = before.toList.flatMap row ++ inner ∧
      before.size < fanout ∧ ∀ tree ∈ before.toList, tree.Complete capacity := by
  obtain ⟨before', child', same, few, complete, innerShaped⟩ := packed.shaped
  obtain ⟨rfl, rfl⟩ := Array.push_eq_push.mp same
  obtain ⟨inner, split, rfl⟩ := innerShaped.exists_front packed.parts
  have full := packed.full
  refine ⟨inner, innerShaped.packed split (fun segment member => full segment (by simp [member]))
    packed.filled, rfl, few, fun tree member => ?_⟩
  obtain ⟨shaped, length⟩ := complete tree (Array.mem_toList_iff.mp member)
  refine ⟨shaped, length, fun segment inside => full segment ?_⟩
  exact List.mem_append_left _ (List.mem_flatMap.mpr ⟨tree, member, inside⟩)

theorem Matches.branch {before : Array (Tree α level)} {child child' : Tree α level}
    {others : List (Tree α level)} (few : before.size < fanout)
    (alike : Alike capacity others before.toList) (matched : child'.Matches child) :
    @Matches α (level + 1) (others.toArray.push child') (before.push child) where
  shaped := .push (by simpa [alike.length] using few)
    (fun tree member =>
      have complete := alike.complete tree (by simpa using member)
      ⟨complete.shaped, complete.length⟩)
    matched.shaped
  outlines := by
    simp only [row_push, List.map_append, matched.outlines, alike.outlines]

theorem splitFrom_eq {τ : Type} (row : Array τ) (position : Nat) :
    splitFrom row position = ((row.toList.take position).toArray, row.toList.drop position) :=
  Prod.ext (Array.ext' (toList_splitFrom row position)) (splitFrom_later row position)

/-- The way of an index into a branch: it splits the branch at the child that it leads to, and
points into that child. -/
structure Path (capacity : Nat) (before : Array (Tree α level)) (child : Tree α level) (index : Nat)
    (earlier later : List (Tree α level)) (offset : Nat) : Prop where
  parts : before.toList = earlier ++ later
  split : splitFrom (before.push child) (index / span capacity level) =
    (earlier.toArray, later ++ [child])
  rest : index % span capacity level = offset
  place : index = (earlier.flatMap toList).length + offset
  short : ∀ first ∈ (later ++ [child]).head?, offset < first.toList.length

theorem Packed.exists_path {before : Array (Tree α level)} {child : Tree α level}
    (packed : @Packed α (level + 1) capacity (before.push child) front last) {index : Nat}
    (inside : index < (@toList α (level + 1) (before.push child)).length) :
    ∃ earlier later offset, Path capacity before child index earlier later offset := by
  obtain ⟨inner, innerPacked, -, -, complete⟩ := packed.exists_inner
  have wide := span_pos packed.capacity_pos level
  have width : ∀ tree ∈ before.toList, tree.toList.length = span capacity level :=
    fun tree member => (complete tree member).length_toList
  rw [toList_push, List.length_append, length_flatMap_of_width width, Array.length_toList] at inside
  have bound := innerPacked.length_le_span
  have place := Nat.div_add_mod' index (span capacity level)
  have short := Nat.mod_lt index wide
  have within : index / span capacity level ≤ before.size :=
    Nat.le_of_lt_succ ((Nat.div_lt_iff_lt_mul wide).mpr (by rw [Nat.succ_mul]; omega))
  refine ⟨before.toList.take (index / span capacity level),
    before.toList.drop (index / span capacity level), index % span capacity level,
    (List.take_append_drop ..).symm, ?_, rfl, ?_, ?_⟩
  · rw [splitFrom_eq, Array.toList_push, List.take_append_of_le_length (by simpa using within),
      List.drop_append_of_le_length (by simpa using within)]
  · rw [length_flatMap_of_width fun tree member => width tree (List.mem_of_mem_take member),
      List.length_take, Array.length_toList, Nat.min_eq_left within, place]
  · intro first head
    rcases Nat.lt_or_eq_of_le within with inFront | atEnd
    · rw [List.drop_eq_getElem_cons (by simpa using inFront)] at head
      obtain rfl := Option.some.inj head
      rw [width _ (List.getElem_mem _)]
      exact short
    · rw [atEnd] at head place
      obtain rfl : child = first := by simpa using head
      omega

/-! ### Insertion -/

/-- An insertion that reaches a segment. -/
def intoSegment (options : Options) (index : Nat) (x : α) (segment : Tree α 0) :
    Depot.Step σ (Buffer α × Option α) :=
  segment.insert options index x

theorem intoSegment_of_room {segment : Buffer α} (room : segment.isFull options = false)
    (index : Nat) (x : α) :
    (intoSegment options index x segment : Depot.Step σ _) = do
      let longer ← segment.insert options index x
      return (longer, none) := by
  simp only [intoSegment, insert, room, Bool.false_eq_true, if_false]
  rfl

theorem intoSegment_of_full {segment : Buffer α} (full : segment.Full options.segmentCapacity)
    {index : Nat} (inside : index < segment.size) (x : α) :
    ∃ segment' carry, (intoSegment options index x segment : Depot.Step σ _) =
        pure (segment', some carry) ∧ segment'.outline = segment.outline ∧
      segment'.toList ++ [carry] = segment.toList.insertIdx index x := by
  obtain ⟨items, capacity⟩ := segment
  have some : items.size ≠ 0 := Nat.ne_of_gt (Nat.lt_of_le_of_lt (Nat.zero_le index) inside)
  obtain ⟨kept, carry, rfl⟩ := Array.eq_push_of_size_ne_zero some
  have size := full.size
  have fits := full.fits
  simp only [Buffer.Fits, Buffer.size, Array.size_push] at size fits inside
  have bounds : index ≤ kept.size := by omega
  refine ⟨{ items := kept.insertIdxIfInBounds index x, capacity }, carry, ?_, ?_, ?_⟩
  · have whole : ({ items := kept.push carry, capacity } : Buffer α).isFull options = true :=
      Buffer.isFull_iff.mpr (Nat.le_of_eq full.size.symm)
    have reached : ¬ ({ items := kept.push carry, capacity } : Buffer α).size ≤ index := by
      simp only [Buffer.size, Array.size_push]
      omega
    have stored : (({ items := kept, capacity } : Buffer α).insert options index x :
        Depot.Step σ _) = pure { items := kept.insertIdxIfInBounds index x, capacity } :=
      Buffer.insert_of_spare x (by simp only [Buffer.size]; omega)
        (by simp only [Buffer.size]; omega) bounds
    simp only [intoSegment, insert, whole, if_true, reached, if_false, Buffer.popKeeping,
      Array.back?_push, Array.pop_push, stored, pure_bind]
    rfl
  · simp [Buffer.outline, Buffer.size, Array.insertIdxIfInBounds, bounds]
  · simp only [Buffer.toList, Array.insertIdxIfInBounds, bounds, dite_true, Array.toList_insertIdx,
      Array.toList_push]
    rw [insertIdx_append_left (by simpa using bounds)]

/-- An insertion into a row of complete trees pushes one element on into the tree behind them. -/
theorem insertAcross_of_complete (options : Options) (fulls : List (Tree α level))
    (behind : Tree α level)
    (step : ∀ tree ∈ fulls, ∀ index x, index < tree.toList.length →
      ∃ (tree' : Tree α level) (carry : α),
        (tree.insert options index x : Depot.Step σ _) = pure (tree', some carry) ∧
          tree'.Matches tree ∧ tree'.toList ++ [carry] = tree.toList.insertIdx index x)
    (complete : ∀ tree ∈ fulls, tree.Complete capacity) (positive : 0 < capacity)
    (reachable : 0 < behind.toList.length) (done : Array (Tree α level)) (index : Nat) (x : α)
    (inside : ∀ first ∈ (fulls ++ [behind]).head?, index < first.toList.length) :
    ∃ (fulls' : List (Tree α level)) (index' : Nat) (x' : α),
      (insertAcross (fun index x child => insert options index x child) done index x
          (fulls ++ [behind]) : Depot.Step σ _) = (do
        let (child, carry) ← behind.insert options index' x'
        return ((done ++ fulls').push child, carry)) ∧
      Alike capacity fulls' fulls ∧ index' < behind.toList.length ∧
      fulls'.flatMap toList ++ behind.toList.insertIdx index' x' =
        (fulls.flatMap toList ++ behind.toList).insertIdx index x := by
  induction fulls generalizing done index x with
  | nil =>
    refine ⟨[], index, x, ?_, .refl (by simp), inside behind (by simp), rfl⟩
    apply bind_congr
    intro answer
    obtain ⟨child, carry⟩ := answer
    cases carry <;> simp [insertAcross]
  | cons tree rest ih =>
    obtain ⟨tree', carry, moved, matched, shifted⟩ :=
      step tree (by simp) index x (inside tree (by simp))
    have next : ∀ first ∈ (rest ++ [behind]).head?, 0 < first.toList.length := by
      intro first head
      rcases List.mem_append.mp (List.mem_of_mem_head? head) with member | member
      · rw [(complete first (by simp [member])).length_toList]
        exact span_pos positive level
      · rwa [List.mem_singleton.mp member]
    obtain ⟨rest', index', x', run, alike, reached, contents⟩ :=
      ih (fun tree member => step tree (by simp [member]))
        (fun tree member => complete tree (by simp [member])) (done.push tree') 0 carry next
    refine ⟨tree' :: rest', index', x', ?_, ?_, reached, ?_⟩
    · simp [insertAcross, moved, run]
    · exact (Alike.single (complete tree (by simp)) matched).append alike
    · have before : index ≤ tree.toList.length := Nat.le_of_lt (inside tree (by simp))
      calc (tree' :: rest').flatMap toList ++ behind.toList.insertIdx index' x'
          = tree'.toList ++ (rest'.flatMap toList ++ behind.toList.insertIdx index' x') := by simp
        _ = tree'.toList ++ [carry] ++ (rest.flatMap toList ++ behind.toList) := by
          rw [contents, List.insertIdx_zero, List.append_assoc, List.singleton_append]
        _ = (tree.toList ++ (rest.flatMap toList ++ behind.toList)).insertIdx index x := by
          rw [shifted, insertIdx_append_left before]
        _ = ((tree :: rest).flatMap toList ++ behind.toList).insertIdx index x := by simp

/-- The insertion comes to one into the last segment: the elements from `index` to there have
moved on by one, and no other segment has changed in size or storage. -/
def InsertReaches (σ : Type) [Allocator σ α] (options : Options) (index : Nat) (x : α)
    (tree : Tree α level) (last : Buffer α) : Prop :=
  ∃ (other : Tree α level) (front' : List (Buffer α)) (index' : Nat) (x' : α),
    (tree.insert options index x : Depot.Step σ _) = (do
      let (segment, carry) ← intoSegment options index' x' last
      return (other.setLast segment, carry)) ∧
    other.Matches tree ∧ other.row = front' ++ [last] ∧ index' < last.size ∧
    front'.flatMap Buffer.toList ++ last.toList.insertIdx index' x' =
      tree.toList.insertIdx index x

/-- In a tree without any room the last element has to leave. -/
theorem InsertReaches.of_full {index : Nat} {x : α}
    (reaches : InsertReaches σ options index x tree last)
    (full : last.Full options.segmentCapacity) :
    ∃ (tree' : Tree α level) (carry : α),
      (tree.insert options index x : Depot.Step σ _) = pure (tree', some carry) ∧
        tree'.Matches tree ∧ tree'.toList ++ [carry] = tree.toList.insertIdx index x := by
  obtain ⟨other, front', index', x', run, matched, parts, inside, contents⟩ := reaches
  obtain ⟨segment, carry, moved, outline, shifted⟩ :=
    intoSegment_of_full (σ := σ) full inside x'
  obtain ⟨shaped', row'⟩ := matched.shaped.setLast parts segment
  refine ⟨other.setLast segment, carry, by rw [run, moved, pure_bind], ⟨shaped', ?_⟩, ?_⟩
  · rw [← matched.outlines, row', parts]
    simp [outline]
  · rw [toList_eq_row, row', ← contents, ← shifted]
    simp

/-- An insertion before the end of a packed tree reaches its last segment. -/
theorem Packed.insert (packed : tree.Packed options.segmentCapacity front last) {index : Nat}
    (inside : index < tree.toList.length) (x : α) : InsertReaches σ options index x tree last := by
  induction level generalizing front last index x with
  | zero =>
    obtain ⟨-, rfl⟩ := eq_of_row_segment packed.parts
    exact ⟨last, [], index, x, (bind_pure _).symm, ⟨trivial, rfl⟩, rfl,
      last.length_toList ▸ inside, rfl⟩
  | succ level ih =>
    obtain ⟨before, child, rfl, -⟩ := packed.shaped
    obtain ⟨inner, innerPacked, rfl, few, complete⟩ := packed.exists_inner
    obtain ⟨earlier, later, offset, parts, split, rest, place, first⟩ := packed.exists_path inside
    rw [parts] at complete
    obtain ⟨later', index', x', run, alike, inside', contents⟩ :=
      insertAcross_of_complete (σ := σ) options later child
        (fun tree member index x inside => by
          obtain ⟨front, last, packed, full⟩ :=
            (complete tree (by simp [member])).exists_packed packed.capacity_pos
          exact (ih packed inside x).of_full full)
        (fun tree member => complete tree (by simp [member])) packed.capacity_pos
        (by rw [innerPacked.length_eq]; have := innerPacked.filled.positive; omega)
        earlier.toArray offset x first
    obtain ⟨child', inner', index'', x'', run', matched, row', inside'', contents'⟩ :=
      ih innerPacked inside' x'
    refine ⟨((earlier ++ later').toArray.push child' : Array (Tree α level)),
      (earlier ++ later').flatMap row ++ inner', index'', x'', ?_, ?_, ?_, inside'', ?_⟩
    · simp only [Tree.insert, split, rest, run, run', bind_assoc, pure_bind, Tree.setLast,
        splitLast?_push]
      have joined : earlier.toArray ++ later' = (earlier ++ later').toArray := by simp
      rw [joined]
      rfl
    · refine Matches.branch few (?_ : Alike options.segmentCapacity _ _) matched
      rw [parts]
      exact (Alike.refl fun tree member => complete tree (by simp [member])).append alike
    · rw [row_push, row', List.append_assoc]
    · rw [List.flatMap_append, flatMap_row_flatMap, List.append_assoc, contents', toList_push,
        parts, place, List.flatMap_append, List.flatMap_append, List.append_assoc, contents,
        List.append_assoc, insertIdx_append_right]

end Tree

end Segmented
