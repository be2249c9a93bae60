import Segmented.Proofs.Cascade

/-! Removal from a packed tree. Every complete tree behind the gap gives its first element to the
tree in front of it and gets one from the tree behind it, without the depot; only the last segment
ends up shorter. -/

namespace Segmented

variable {σ α : Type} [Allocator σ α]

/-- The same storage without the element at `index`. -/
def Buffer.without (index : Nat) (buffer : Buffer α) : Buffer α :=
  { buffer with items := buffer.items.eraseIdxIfInBounds index }

theorem Buffer.toList_without {buffer : Buffer α} {index : Nat} (inside : index < buffer.size) :
    (buffer.without index).toList = buffer.toList.eraseIdx index := by
  have bounds : index < buffer.items.size := inside
  simp [without, toList, Array.eraseIdxIfInBounds, bounds, Array.toList_eraseIdx]

theorem Buffer.size_without {buffer : Buffer α} {index : Nat} (inside : index < buffer.size) :
    (buffer.without index).size = buffer.size - 1 := by
  rw [← length_toList, toList_without inside, List.length_eraseIdx, length_toList, if_pos inside]

namespace Tree

variable {level capacity : Nat} {options : Options} {tree : Tree α level}
  {front : List (Buffer α)} {last : Buffer α}

/-! ### Complete trees -/

theorem removeAt_segment (options : Options) {segment : Buffer α} {index : Nat}
    (inside : index < segment.size) :
    ∃ removed, segment.toList[index]? = some removed ∧
      @removeAt σ α _ options 0 index none segment = do
        let settled ← (segment.without index).settle options
        return (some removed, settled) := by
  have bounds : index < segment.items.size := inside
  refine ⟨segment.items[index], by simp [Buffer.toList, bounds], ?_⟩
  simp only [removeAt, Buffer.removeAt_of_lt bounds, bind_assoc, pure_bind]
  rfl

/-- A full segment that gets an element for the one it loses. -/
theorem removeAt_of_full {segment : Buffer α} (full : segment.Full options.segmentCapacity)
    {index : Nat} (inside : index < segment.size) (x : α) :
    ∃ (segment' : Buffer α) (removed : α),
      @removeAt σ α _ options 0 index (some x) segment = pure (some removed, segment') ∧
      segment'.outline = segment.outline ∧
      segment.toList[index]? = some removed ∧
      segment'.toList = segment.toList.eraseIdx index ++ [x] := by
  have bounds : index < segment.items.size := inside
  have size := full.size
  have fits := full.fits
  have large := options.supported.1
  have shorter := Buffer.size_without inside
  unfold Buffer.Fits at fits
  have settled : ((segment.without index).settle options : Depot.Step σ _) =
      pure (segment.without index) := Buffer.settle_of_nonempty (by omega)
  have spare : (segment.without index).size < (segment.without index).capacity := by
    change _ < segment.capacity
    omega
  have pushed : ((segment.without index).push options x : Depot.Step σ _) =
      pure { segment.without index with items := (segment.without index).items.push x } :=
    Buffer.push_of_spare x (by omega) spare
  refine ⟨{ segment.without index with items := (segment.without index).items.push x },
    segment.items[index], ?_, ?_, by simp [Buffer.toList, bounds], ?_⟩
  · simp only [removeAt, Buffer.removeAt_of_lt bounds, bind_assoc, pure_bind]
    rw [show ({ segment with items := segment.items.eraseIdxIfInBounds index } : Buffer α) =
      segment.without index from rfl, settled, pure_bind, pushed]
    rfl
  · have longer : ((segment.without index).items.push x).size = segment.size := by
      rw [Array.size_push]
      exact (congrArg (· + 1) shorter).trans (Nat.sub_add_cancel (by omega))
    exact Prod.ext longer rfl
  · rw [← Buffer.toList_without inside]
    exact Array.toList_push

theorem Complete.isEmpty_eq_false (positive : 0 < capacity) (complete : tree.Complete capacity) :
    tree.isEmpty = false := by
  cases level with
  | zero =>
    change Buffer α at tree
    have full := complete.full tree (List.mem_singleton.mpr rfl)
    exact Buffer.isEmpty_eq_false_iff.mpr (full.size ▸ positive)
  | succ level =>
    obtain ⟨before, child, rfl, -⟩ := complete.shaped
    simp

theorem keep_of_complete (positive : 0 < capacity) (complete : tree.Complete capacity)
    (later : List (Tree α level)) : keep tree later = tree :: later := by
  simp [keep, complete.isEmpty_eq_false positive]

/-- The children of a complete branch are complete, and as many as a branch may have. -/
theorem Complete.children {children : Array (Tree α level)}
    (complete : @Complete α (level + 1) capacity children) :
    children.size = fanout ∧ ∀ child ∈ children.toList, child.Complete capacity := by
  obtain ⟨before, last, rfl, few, inner, shaped⟩ := complete.shaped
  have full := complete.full
  have bound := shaped.length_le
  have total := complete.length
  have most : (before.size + 1) * leaves level ≤ fanout * leaves level :=
    Nat.mul_le_mul_right _ few
  rw [Nat.succ_mul] at most
  rw [row_push, List.length_append, length_row_of_complete inner, leaves] at total
  have length : last.row.length = leaves level := by omega
  rw [length, ← Nat.succ_mul] at total
  refine ⟨(Array.size_push ..).trans (Nat.eq_of_mul_eq_mul_right (leaves_pos level) total), ?_⟩
  intro child member
  have inside : ∀ segment ∈ child.row, segment.Full capacity := fun segment within =>
    full segment (mem_row_branch (Array.mem_toList_iff.mp member) within)
  rcases Array.mem_push.mp (Array.mem_toList_iff.mp member) with old | rfl
  · exact ⟨(inner child old).1, (inner child old).2, inside⟩
  · exact ⟨shaped, length, inside⟩

theorem Complete.matches_of_alike {children : Array (Tree α level)} {others : List (Tree α level)}
    (complete : @Complete α (level + 1) capacity children)
    (alike : Alike capacity others children.toList) :
    @Matches α (level + 1) others.toArray children where
  shaped := by
    have size : others.toArray.size = fanout :=
      (alike.length.trans Array.length_toList).trans complete.children.1
    refine .of_complete (Nat.le_of_eq size) ?_ fun tree member => ?_
    · rintro none
      rw [none] at size
      exact absurd size (show 0 ≠ fanout by decide)
    · have whole := alike.complete tree (by simpa using member)
      exact ⟨whole.shaped, whole.length⟩
  outlines := by simpa only [row_branch] using alike.outlines

/-- What a complete tree does that loses the element at `index` and gets `x` at its end. -/
def Exchanges (σ : Type) [Allocator σ α] (options : Options) (index : Nat) (x : α)
    (tree : Tree α level) : Prop :=
  ∃ (tree' : Tree α level) (removed : α),
    (tree.removeAt options index (some x) : Depot.Step σ _) = pure (some removed, tree') ∧
      tree'.Matches tree ∧ tree.toList[index]? = some removed ∧
      tree'.toList = tree.toList.eraseIdx index ++ [x]

/-- Complete trees pull one element forward, each from the tree behind it. -/
theorem pullAcross_of_complete (options : Options) (fulls : List (Tree α level))
    (step : ∀ tree ∈ fulls, ∀ x, Exchanges σ options 0 x tree)
    (complete : ∀ tree ∈ fulls, tree.Complete capacity) (positive : 0 < capacity)
    (x : α) :
    ∃ (fulls' : List (Tree α level)) (carry : α),
      (∀ later, (pullAcross (fun index incoming child => removeAt options index incoming child)
          fulls.reverse (some x) later : Depot.Step σ _) = pure (some carry, fulls' ++ later)) ∧
        Alike capacity fulls' fulls ∧
        carry :: fulls'.flatMap toList = fulls.flatMap toList ++ [x] := by
  induction fulls using List.reverseRecOn generalizing x with
  | nil => exact ⟨[], x, fun _ => rfl, .refl (by simp), rfl⟩
  | append_singleton front tree ih =>
    obtain ⟨tree', removed, moved, matched, first, contents'⟩ := step tree (by simp) x
    have whole := complete tree (by simp)
    obtain ⟨front', carry, run, alike, contents⟩ :=
      ih (fun tree member => step tree (by simp [member]))
        (fun tree member => complete tree (by simp [member])) removed
    refine ⟨front' ++ [tree'], carry, fun later => ?_, alike.append (.single whole matched), ?_⟩
    · simp [pullAcross, moved, keep_of_complete positive (whole.of_matches matched), run]
    · calc carry :: (front' ++ [tree']).flatMap toList
          = (carry :: front'.flatMap toList) ++ tree'.toList := by simp
        _ = front.flatMap toList ++ (removed :: tree.toList.eraseIdx 0) ++ [x] := by
            rw [contents, contents']
            simp
        _ = (front ++ [tree]).flatMap toList ++ [x] := by
            rw [cons_eraseIdx_zero first]
            simp

theorem Complete.removeAt (complete : tree.Complete options.segmentCapacity) {index : Nat}
    (inside : index < tree.toList.length) (x : α) : Exchanges σ options index x tree := by
  have positive := options.segmentCapacity_pos
  induction level generalizing index x with
  | zero =>
    change Buffer α at tree
    obtain ⟨segment', removed, moved, outline, found, contents⟩ :=
      removeAt_of_full (σ := σ) (complete.full tree (List.mem_singleton.mpr rfl))
        ((Buffer.length_toList tree) ▸ inside) x
    exact ⟨segment', removed, moved, ⟨trivial, by simp [outline]⟩, found, contents⟩
  | succ level ih =>
    obtain ⟨front, last, packed, -⟩ := complete.exists_packed positive
    obtain ⟨before, child, rfl, -⟩ := packed.shaped
    obtain ⟨earlier, later, offset, parts, split, rest, place, short⟩ := packed.exists_path inside
    obtain ⟨first, behind, row⟩ : ∃ first behind, later ++ [child] = first :: behind :=
      List.exists_cons_of_ne_nil (by simp)
    have children : (before.push child).toList = earlier ++ first :: behind := by
      rw [Array.toList_push, parts, List.append_assoc, row]
    have whole := complete.children.2
    rw [children] at whole
    rw [row] at split short
    obtain ⟨behind', carry, run, alike, contents⟩ :=
      pullAcross_of_complete (σ := σ) options behind
        (fun tree member x =>
          have full := whole tree (by simp [member])
          ih full (by rw [full.length_toList]; exact span_pos positive level) x)
        (fun tree member => whole tree (by simp [member])) positive x
    have ahead := whole first (by simp)
    obtain ⟨first', removed, moved, matched, found, contents'⟩ :=
      ih ahead (short first rfl) carry
    refine ⟨((earlier ++ first' :: behind').toArray : Array (Tree α level)), removed,
      ?_, ?_, ?_, ?_⟩
    · simp only [Tree.removeAt, split, rest, run, pure_bind, moved, List.append_nil,
        keep_of_complete positive (ahead.of_matches matched)]
      have joined : earlier.toArray ++ (first' :: behind') =
        (earlier ++ first' :: behind').toArray := by simp
      rw [joined]
    · refine complete.matches_of_alike ?_
      rw [children]
      exact (Alike.refl fun tree member => whole tree (by simp [member])).append
        ((Alike.single ahead matched).append alike)
    · rw [toList_branch, children, List.flatMap_append, place,
        List.getElem?_append_right (Nat.le_add_right ..), Nat.add_sub_cancel_left,
        List.flatMap_cons, List.getElem?_append_left (short first rfl), found]
    · have within : offset < first.toList.length := short first rfl
      calc @toList α (level + 1) (earlier ++ first' :: behind').toArray
          = earlier.flatMap toList ++ (first.toList.eraseIdx offset ++
              (carry :: behind'.flatMap toList)) := by
            simp [toList_branch, contents']
        _ = earlier.flatMap toList ++ (first.toList ++ behind.flatMap toList).eraseIdx offset ++
              [x] := by
            rw [contents, List.eraseIdx_append_of_lt_length within]
            simp
        _ = (@toList α (level + 1) (before.push child)).eraseIdx index ++ [x] := by
            rw [toList_branch, children, List.flatMap_append, place, eraseIdx_append_right,
              List.flatMap_cons]

/-! ### Packed trees -/

/-- The removal comes to one from the last segment: the elements from there to `index` have moved
back by one, and no other segment has changed in size or storage. -/
def RemovalReaches (σ : Type) [Allocator σ α] (options : Options) (index : Nat)
    (tree : Tree α level) (last : Buffer α) : Prop :=
  ∃ (other : Tree α level) (front' : List (Buffer α)) (index' : Nat) (removed : α),
    (tree.removeAt options index none : Depot.Step σ _) = (do
      let segment ← (last.without index').settle options
      return (some removed, other.trimLast segment)) ∧
    other.Matches tree ∧ other.row = front' ++ [last] ∧ index' < last.size ∧
    tree.toList[index]? = some removed ∧
    front'.flatMap Buffer.toList ++ last.toList.eraseIdx index' = tree.toList.eraseIdx index

theorem append_keep_trimLast (others : List (Tree α level)) (child : Tree α level)
    (segment : Buffer α) :
    others.toArray ++ keep (child.trimLast segment) [] =
      @trimLast α segment (level + 1) (others.toArray.push child) := by
  simp only [Tree.trimLast, splitLast?_push, keep]
  split <;> simp

/-- The index lies in the last child, which alone changes. -/
theorem RemovalReaches.of_last {before : Array (Tree α level)} {child : Tree α level}
    {index offset : Nat} {earlier : List (Tree α level)}
    (path : Path options.segmentCapacity before child index earlier [] offset)
    (few : before.size < fanout)
    (complete : ∀ tree ∈ before.toList, tree.Complete options.segmentCapacity)
    (reaches : RemovalReaches σ options offset child last) :
    @RemovalReaches α (level + 1) σ _ options index (before.push child) last := by
  obtain ⟨parts, split, rest, place, short⟩ := path
  obtain ⟨child', inner', index', removed, run, matched, row', within, found, contents⟩ := reaches
  rw [List.append_nil] at parts
  rw [parts] at complete
  refine ⟨(earlier.toArray.push child' : Array (Tree α level)), earlier.flatMap row ++ inner',
    index', removed, ?_, ?_, ?_, within, ?_, ?_⟩
  · simp only [Tree.removeAt, split, rest, List.nil_append, List.reverse_nil, pullAcross,
      pure_bind, run, bind_assoc, append_keep_trimLast]
  · apply Matches.branch few (?_ : Alike options.segmentCapacity _ _) matched
    rw [parts]
    exact .refl complete
  · rw [row_push, row', List.append_assoc]
  · rw [toList_push, parts, place, List.getElem?_append_right (Nat.le_add_right ..),
      Nat.add_sub_cancel_left, found]
  · rw [List.flatMap_append, flatMap_row_flatMap, List.append_assoc, contents, toList_push,
      parts, place, eraseIdx_append_right]

/-- The last child gives its first element to the row of complete children in front of it. -/
theorem RemovalReaches.of_front {before : Array (Tree α level)} {child first : Tree α level}
    {index offset : Nat} {earlier middle : List (Tree α level)}
    (path : Path options.segmentCapacity before child index earlier (first :: middle) offset)
    (few : before.size < fanout)
    (complete : ∀ tree ∈ before.toList, tree.Complete options.segmentCapacity)
    (reaches : RemovalReaches σ options 0 child last) :
    @RemovalReaches α (level + 1) σ _ options index (before.push child) last := by
  have positive := options.segmentCapacity_pos
  obtain ⟨parts, split, rest, place, short⟩ := path
  rw [parts] at complete
  obtain ⟨child', inner', index', freed, run, matched, row', within, found, contents⟩ := reaches
  obtain ⟨middle', carry, pulled, alike, contents'⟩ :=
    pullAcross_of_complete (σ := σ) options middle
      (fun tree member x =>
        have full := complete tree (by simp [member])
        full.removeAt (by rw [full.length_toList]; exact span_pos positive level) x)
      (fun tree member => complete tree (by simp [member])) positive freed
  have ahead := complete first (by simp)
  have inFirst : offset < first.toList.length := short first rfl
  obtain ⟨first', removed, moved, matched', found', contents''⟩ :=
    ahead.removeAt (σ := σ) inFirst carry
  refine ⟨((earlier ++ first' :: middle').toArray.push child' : Array (Tree α level)),
    (earlier ++ first' :: middle').flatMap row ++ inner', index', removed, ?_, ?_, ?_, within,
    ?_, ?_⟩
  · have joined (behind : List (Tree α level)) :
        earlier.toArray ++ (first' :: (middle' ++ behind)) =
          (earlier ++ first' :: middle').toArray ++ behind := by simp
    simp only [Tree.removeAt, split, rest, List.cons_append, List.reverse_append,
      List.reverse_singleton, pullAcross, run, pulled, moved, bind_assoc,
      List.nil_append, pure_bind, keep_of_complete positive (ahead.of_matches matched'), joined,
      append_keep_trimLast]
  · apply Matches.branch few (?_ : Alike options.segmentCapacity _ _) matched
    rw [parts]
    exact (Alike.refl fun tree member => complete tree (by simp [member])).append
      ((Alike.single ahead matched').append alike)
  · rw [row_push, row', List.append_assoc]
  · rw [toList_push, parts, List.flatMap_append, List.append_assoc, place,
      List.getElem?_append_right (Nat.le_add_right ..), Nat.add_sub_cancel_left,
      List.flatMap_cons, List.append_assoc, List.getElem?_append_left inFirst, found']
  · calc ((earlier ++ first' :: middle').flatMap row ++ inner').flatMap Buffer.toList ++
          last.toList.eraseIdx index'
        = earlier.flatMap toList ++ (first.toList.eraseIdx offset ++
            (carry :: middle'.flatMap toList) ++ child.toList.eraseIdx 0) := by
          rw [List.flatMap_append, flatMap_row_flatMap, List.append_assoc, contents]
          simp [contents'']
      _ = earlier.flatMap toList ++ (first.toList.eraseIdx offset ++ middle.flatMap toList ++
            (freed :: child.toList.eraseIdx 0)) := by
          rw [contents']
          simp
      _ = earlier.flatMap toList ++
            (first.toList ++ (middle.flatMap toList ++ child.toList)).eraseIdx offset := by
          rw [cons_eraseIdx_zero found, List.eraseIdx_append_of_lt_length inFirst,
            List.append_assoc]
      _ = (@toList α (level + 1) (before.push child)).eraseIdx index := by
          rw [toList_push, parts, place, List.flatMap_append, List.append_assoc,
            eraseIdx_append_right, List.flatMap_cons, List.append_assoc]

theorem Packed.removeAt (packed : tree.Packed options.segmentCapacity front last) {index : Nat}
    (inside : index < tree.toList.length) : RemovalReaches σ options index tree last := by
  induction level generalizing front last index with
  | zero =>
    obtain ⟨-, rfl⟩ := eq_of_row_segment packed.parts
    have within : index < last.size := last.length_toList ▸ inside
    obtain ⟨removed, found, run⟩ := removeAt_segment (σ := σ) options within
    exact ⟨last, [], index, removed, run, ⟨trivial, rfl⟩, rfl, within, found, rfl⟩
  | succ level ih =>
    obtain ⟨before, child, rfl, -⟩ := packed.shaped
    obtain ⟨inner, innerPacked, rfl, few, complete⟩ := packed.exists_inner
    obtain ⟨earlier, later, offset, path⟩ := packed.exists_path inside
    cases later with
    | nil => exact .of_last path few complete (ih innerPacked (path.short child rfl))
    | cons first middle =>
      have nonempty : 0 < child.toList.length := by
        rw [innerPacked.length_eq]
        exact Nat.add_pos_right _ innerPacked.filled.positive
      exact .of_front path few complete (ih innerPacked nonempty)

end Tree

end Segmented
