import Segmented.Proofs.Rewrite

/-! Where the segments stay as they are, a sequence is determined by its elements. Every change in
place is therefore the same as writing all elements anew into the segments that are there. -/

namespace Segmented

variable {α τ υ : Type}

/-- Items that can be told by pieces of one width can be told by the row of their pieces. -/
theorem eq_of_flatMap_eq {pieces : τ → List υ} {width : Nat} (positive : 0 < width)
    {xs ys : List τ} (wide : ∀ x ∈ xs, (pieces x).length = width)
    (wide' : ∀ y ∈ ys, (pieces y).length = width)
    (each : ∀ x ∈ xs, ∀ y ∈ ys, pieces x = pieces y → x = y)
    (same : xs.flatMap pieces = ys.flatMap pieces) : xs = ys := by
  have total := congrArg List.length same
  rw [length_flatMap_of_width wide, length_flatMap_of_width wide'] at total
  have lengths := Nat.eq_of_mul_eq_mul_right positive total
  -- `total` is about the whole rows and would keep the induction from shortening them.
  clear total
  induction xs generalizing ys with
  | nil => exact (List.eq_nil_of_length_eq_zero lengths.symm).symm
  | cons x xs ih =>
    obtain ⟨y, ys, rfl⟩ := List.exists_cons_of_length_eq_add_one lengths.symm
    rw [List.flatMap_cons, List.flatMap_cons] at same
    obtain ⟨first, rest⟩ :=
      List.append_inj same ((wide x (by simp)).trans (wide' y (by simp)).symm)
    rw [each x (by simp) y (by simp) first,
      ih (fun x member => wide x (by simp [member])) (fun y member => wide' y (by simp [member]))
        (fun x member y member' => each x (by simp [member]) y (by simp [member'])) rest
        (Nat.succ.inj lengths)]

/-- Segments of the same sizes and storage that hold the same elements are the same. -/
theorem Buffer.eq_of_outlines {row other : List (Buffer α)}
    (outlines : row.map outline = other.map outline)
    (elements : row.flatMap toList = other.flatMap toList) : row = other := by
  induction row generalizing other with
  | nil => exact (List.map_eq_nil_iff.mp outlines.symm).symm
  | cons segment row ih =>
    obtain ⟨segment', other, rfl, same, outlines'⟩ := List.map_eq_cons_iff.mp outlines.symm
    rw [List.flatMap_cons, List.flatMap_cons] at elements
    obtain ⟨size, storage⟩ := Prod.mk.inj same
    obtain ⟨items, rest⟩ := List.append_inj elements (by
      rw [length_toList, length_toList]
      exact size.symm)
    obtain ⟨items', capacity'⟩ := segment'
    obtain ⟨_, capacity⟩ := segment
    obtain rfl : capacity' = capacity := storage
    rw [ih outlines'.symm rest]
    exact congrArg (· :: other) (congrArg (Buffer.mk · capacity') (Array.ext' items))

namespace Tree

variable {level capacity : Nat} {tree other other' : Tree α level} {front : List (Buffer α)}
  {last : Buffer α}

/-- A tree is determined by its segments. -/
theorem Shaped.eq_of_row (shaped : tree.Shaped) (shaped' : other.Shaped)
    (same : tree.row = other.row) : tree = other := by
  induction level with
  | zero => exact (List.singleton_inj.mp same :)
  | succ level ih =>
    have positive := leaves_pos level
    obtain ⟨before, last, rfl, -, complete, inner⟩ := shaped
    obtain ⟨before', last', rfl, -, complete', inner'⟩ := shaped'
    have wide (child) (member : child ∈ before.toList) :=
      complete child (Array.mem_toList_iff.mp member)
    have wide' (child) (member : child ∈ before'.toList) :=
      complete' child (Array.mem_toList_iff.mp member)
    rw [row_push, row_push] at same
    have number : before.size = before'.size := by
      have total := congrArg List.length same
      rw [List.length_append, List.length_append, length_row_of_complete complete,
        length_row_of_complete complete'] at total
      have some := inner.length_pos
      have some' := inner'.length_pos
      have most := inner.length_le
      have most' := inner'.length_le
      rcases Nat.lt_trichotomy before.size before'.size with fewer | equal | more
      · have := Nat.mul_le_mul_right (leaves level) fewer
        rw [Nat.succ_mul] at this
        omega
      · exact equal
      · have := Nat.mul_le_mul_right (leaves level) more
        rw [Nat.succ_mul] at this
        omega
    obtain ⟨fronts, ends⟩ := List.append_inj same (by
      rw [length_row_of_complete complete, length_row_of_complete complete', number])
    have children : before.toList = before'.toList :=
      eq_of_flatMap_eq positive (fun child member => (wide child member).2)
        (fun child member => (wide' child member).2)
        (fun child member child' member' => ih (wide child member).1 (wide' child' member').1)
        fronts
    rw [ih inner inner' ends, Array.ext' children]

/-- Changes in place that leave the same elements leave the same tree. -/
theorem Matches.eq (matched : other.Matches tree) (matched' : other'.Matches tree)
    (elements : other.toList = other'.toList) : other = other' := by
  refine matched.shaped.eq_of_row matched'.shaped (Buffer.eq_of_outlines ?_ ?_)
  · rw [matched.outlines, matched'.outlines]
  · rw [← toList_eq_row, ← toList_eq_row, elements]

theorem Matches.refl (shaped : tree.Shaped) : tree.Matches tree := ⟨shaped, rfl⟩

theorem Matches.trans (matched' : other'.Matches other) (matched : other.Matches tree) :
    other'.Matches tree :=
  ⟨matched'.shaped, matched'.outlines.trans matched.outlines⟩

end Tree

namespace Sequence

variable {s : Sequence α} {contents : Array α}

theorem refill_of_root {level : Nat} {tree : Tree α level} (root : s.root = some { level, tree })
    (contents : Array α) :
    s.refill contents = { s with
      root := some { level, tree := tree.refill s.options.segmentCapacity contents 0 } } := by
  simp only [refill, detach, root]

namespace Valid

theorem refill_toArray (valid : s.Valid) : s.refill s.toArray = s := by
  cases valid with
  | empty root =>
    simp only [refill, detach, root]
    rw [← root]
  | tree root packed total tail =>
    rename_i level tree front last
    have same : s.toArray = tree.toArray := Array.ext' (toList_of_root root)
    obtain ⟨matched, elements⟩ := packed.refill (rfl : tree.toArray.size = _)
    rw [refill_of_root root, same, matched.eq (.refl packed.shaped) elements, ← root]

theorem refill_refill (valid : s.Valid) (enough : contents.size = s.length) {again : Array α}
    (enough' : again.size = s.length) : (s.refill contents).refill again = s.refill again := by
  cases valid with
  | empty root => simp only [refill, detach, root]
  | tree root packed total =>
    obtain ⟨matched, elements⟩ := packed.refill (enough.trans total)
    obtain ⟨_, _, packed', -⟩ := packed.of_matches matched
    obtain ⟨matched', elements'⟩ := packed'.refill (by
      rw [elements, Array.length_toList, enough', enough])
    obtain ⟨matched'', elements''⟩ := packed.refill (enough'.trans total)
    rw [refill_of_root root, refill_of_root root]
    refine (refill_of_root rfl again).trans ?_
    rw [(matched'.trans matched).eq matched'' (elements'.trans elements''.symm)]

/-- A change of one element, as a refill. -/
theorem modify_eq_refill (valid : s.Valid) (index : Nat) (change : α → α) :
    s.modify index change = s.refill (s.toArray.modify index change) := by
  cases valid with
  | empty root => simp only [modify, refill, detach, root]
  | tree root packed total tail =>
    rename_i level tree front last
    have same : s.toArray = tree.toArray := Array.ext' (toList_of_root root)
    obtain ⟨matched, elements⟩ := packed.modify change index
    obtain ⟨matched', elements'⟩ := packed.refill
      (show (tree.toArray.modify index change).size = _ from Array.size_modify)
    rw [refill_of_root root, same, ← matched.eq matched' (by
      rw [elements, elements', Array.toList_modify]
      rfl)]
    simp only [modify, detach, root]

theorem outlines_refill (valid : s.Valid) {contents : Array α}
    (enough : contents.size = s.length) :
    (s.refill contents).segments.toList.map Buffer.outline =
      s.segments.toList.map Buffer.outline := by
  cases valid with
  | empty root => simp [refill, detach, segments, root]
  | tree root packed total =>
    obtain ⟨matched, -⟩ := packed.refill (enough.trans total)
    rw [refill_of_root root, segments_eq_row root]
    exact (congrArg (List.map Buffer.outline) (segments_eq_row rfl)).trans matched.outlines

theorem toArray_refill (valid : s.Valid) (enough : contents.size = s.length) :
    (s.refill contents).toArray = contents :=
  Array.ext' (follows_refill valid enough).2.elements

/-- The exchange of two elements, as a refill. -/
theorem exchange_eq_refill (valid : s.Valid) {first second : Nat} (inside : first < s.toArray.size)
    (inside' : second < s.toArray.size) :
    s.exchange first second = s.refill (s.toArray.swap first second inside inside') := by
  have length : s.length = s.toArray.size := valid.length_eq
  have same : (s.modify first fun _ => s.toArray[second]).toArray =
      s.toArray.modify first fun _ => s.toArray[second] :=
    Array.ext' ((follows_modify valid first _).2.elements.trans Array.toList_modify.symm)
  have here : s.toList[first]? = some s.toArray[first] := by simp [toList, inside]
  have there : s.toList[second]? = some s.toArray[second] := by simp [toList, inside']
  unfold exchange
  simp only [valid.get?_eq, here, there]
  rw [(follows_modify valid first _).2.valid.modify_eq_refill, same, valid.modify_eq_refill,
    valid.refill_refill (Array.size_modify.trans length.symm)
      (Array.size_modify.trans (Array.size_modify.trans length.symm))]
  refine congrArg s.refill (Array.ext' ?_)
  rw [Array.toList_modify, Array.toList_modify, modify_const, modify_const, Array.swap_def]
  simp

end Valid

end Sequence

end Segmented
