import Segmented.Proofs.Search

/-! A search from the end asks about the same positions in the same order as one through the array
of the elements. With the search from the front, every search of a valid sequence is one of its
elements. -/

namespace Segmented.Tree

variable {α S : Type} {test : α → StateM S Bool}

/-! ### Scans of arrays from the end -/

/-- A scan from the end goes on below a range that holds nothing. -/
theorem scanBack_add (items : Array α) {start first second : Nat}
    (inside : second ≠ 0 → start + (first + second) ≤ items.size) :
    scanBack test items start (first + second) = (do
      match ← scanBack test items (start + first) second with
      | some found => return some found
      | none => scanBack test items start first) := by
  induction second with
  | zero => rfl
  | succ second ih =>
    have bound := inside (Nat.succ_ne_zero second)
    rw [← Nat.add_assoc, scanBack, scanBack, ← Nat.add_assoc start,
      Array.getElem?_eq_getElem (by omega : start + first + second < items.size)]
    simp only [bind_assoc]
    apply bind_congr
    intro answer
    cases answer with
    | true => simp
    | false =>
      simp only [Bool.false_eq_true, if_false]
      exact ih fun _ => by omega

theorem scanBack_append_left (items later : Array α) {start count : Nat}
    (inside : count ≠ 0 → start + count ≤ items.size) :
    scanBack test (items ++ later) start count = scanBack test items start count := by
  induction count with
  | zero => rfl
  | succ count ih =>
    have bound := inside (Nat.succ_ne_zero count)
    have here : (items ++ later)[start + count]? = items[start + count]? :=
      Array.getElem?_append_left (by omega)
    rw [scanBack, scanBack, here, ih fun _ => by omega]

theorem scanBack_append_right (items later : Array α) (start count : Nat) :
    scanBack test (items ++ later) (items.size + start) count = (do
      return (← scanBack test later start count).map (items.size + ·)) := by
  induction count with
  | zero => rfl
  | succ count ih =>
    have here : (items ++ later)[items.size + start + count]? = later[start + count]? := by
      rw [Array.getElem?_append_right (by omega), Nat.add_assoc, Nat.add_sub_cancel_left]
    rw [scanBack, scanBack, here]
    cases later[start + count]? with
    | none => simp
    | some x =>
      simp only [bind_assoc]
      apply bind_congr
      intro answer
      cases answer with
      | true => simp [Nat.add_assoc]
      | false => simpa using ih

/-- A range of two joined arrays is searched in the second and then in the first. -/
theorem scanBack_append (items later : Array α) {width : Nat}
    (whole : later.size = 0 ∨ items.size = width) (start stop : Nat) :
    scanBack test (items ++ later) start (min stop (items.size + later.size) - start) = (do
      match ← scanBack test later (start - width)
          (min (stop - width) later.size - (start - width)) with
      | some found => return some (width + found)
      | none => scanBack test items start (min stop items.size - start)) := by
  rcases whole with none | rfl
  · obtain rfl := Array.eq_empty_of_size_eq_zero none
    have count : min (stop - width) 0 - (start - width) = 0 := by omega
    simp [scanBack]
  · rcases Nat.le_total start items.size with inside | beyond
    · have count : min stop (items.size + later.size) - start =
          (min stop items.size - start) + (min (stop - items.size) later.size) := by omega
      rw [Nat.sub_eq_zero_of_le inside, Nat.sub_zero, count]
      rcases Nat.le_total stop items.size with short | long
      · have within : min stop items.size - start ≠ 0 →
            start + (min stop items.size - start) ≤ items.size := fun _ => by omega
        simp [Nat.sub_eq_zero_of_le short, scanBack, scanBack_append_left items later within]
      · have next : start + (min stop items.size - start) = items.size + 0 := by omega
        rw [scanBack_add _ fun _ => by rw [Array.size_append]; omega, next, scanBack_append_right,
          scanBack_append_left items later fun _ => by omega]
        simp only [bind_assoc, pure_bind]
        apply bind_congr
        intro answer
        cases answer <;> rfl
    · obtain ⟨offset, rfl⟩ := Nat.exists_eq_add_of_le beyond
      have count : min stop items.size - (items.size + offset) = 0 := by omega
      have count' : min stop (items.size + later.size) - (items.size + offset) =
          min (stop - items.size) later.size - offset := by omega
      rw [count, count', Nat.add_sub_cancel_left, scanBack_append_right]
      apply bind_congr
      intro answer
      cases answer <;> rfl

/-- The part of a range that a slice of a row has is searched from the end in the slice alone. -/
theorem scanBack_slice (test : α → StateM S Bool) (earlier reached later : Array α)
    {start stop : Nat} (begun : earlier.size ≤ start)
    (whole : min stop (earlier.size + (reached.size + later.size)) ≤
      earlier.size + reached.size) :
    scanBack test (earlier ++ (reached ++ later)) start
        (min stop (earlier.size + (reached.size + later.size)) - start) = (do
      return (← scanBack test reached (start - earlier.size)
        (min (stop - earlier.size) reached.size - (start - earlier.size))).map
          (earlier.size + ·)) := by
  obtain ⟨offset, rfl⟩ := Nat.exists_eq_add_of_le begun
  have count : min stop (earlier.size + (reached.size + later.size)) - (earlier.size + offset) =
      min (stop - earlier.size) reached.size - offset := by omega
  rw [count, scanBack_append_right, Nat.add_sub_cancel_left,
    scanBack_append_left reached later fun _ => by omega]

/-! ### Searches of trees from the end -/

variable {level capacity : Nat} {tree : Tree α level} {front : List (Buffer α)}
  {last : Buffer α}

/-- The search of a tree from the end is the scan of its elements from the end. -/
def ScansBack (capacity : Nat) (test : α → StateM S Bool) (tree : Tree α level) : Prop :=
  ∀ start stop, tree.findLast capacity test start stop =
    scanBack test tree.toArray start (min stop tree.toArray.size - start)

theorem searchAcross_append {τ : Type} (search : Nat → Nat → τ → StateM S (Option Nat))
    (width start stop : Nat) (first second : List (τ × Nat)) :
    searchAcross search width start stop (first ++ second) = (do
      match ← searchAcross search width start stop first with
      | some found => return some found
      | none => searchAcross search width start stop second) := by
  induction first with
  | nil => simp [searchAcross]
  | cons item rest ih =>
    obtain ⟨tree, position⟩ := item
    rw [List.cons_append, searchAcross, searchAcross, ih]
    simp only [bind_assoc]
    apply bind_congr
    intro answer
    cases answer <;> simp

theorem searchAcross_reverse_eq {trees : List (Tree α level)} {width : Nat}
    (wide : ∀ tree ∈ trees.dropLast, tree.toArray.size = width)
    (scans : ∀ tree ∈ trees, ScansBack capacity test tree) (position start stop : Nat) :
    searchAcross (fun start stop child => findLast capacity test start stop child) width start
        stop (trees.zipIdx position).reverse = (do
      let items := (trees.flatMap toList).toArray
      return (← scanBack test items (start - position * width)
        (min (stop - position * width) items.size - (start - position * width))).map
          (position * width + ·)) := by
  induction trees generalizing position with
  | nil => simp [searchAcross, scanBack]
  | cons tree rest ih =>
    have joined : (List.flatMap toList (tree :: rest)).toArray =
        tree.toArray ++ (rest.flatMap toList).toArray := by
      rw [List.flatMap_cons, ← List.append_toArray]
      rfl
    have whole : (rest.flatMap toList).toArray.size = 0 ∨ tree.toArray.size = width := by
      cases rest with
      | nil => exact .inl rfl
      | cons next others => exact .inr (wide tree (by simp))
    have inner : ∀ other ∈ rest.dropLast, other.toArray.size = width := by
      intro other member
      have some : rest ≠ [] := List.ne_nil_of_mem (List.mem_of_mem_dropLast member)
      exact wide other (by simp [List.dropLast_cons_of_ne_nil some, member])
    have others := ih inner
      (fun tree member => scans tree (by simp [member])) (position + 1)
    rw [List.zipIdx_cons, List.reverse_cons, searchAcross_append, others, searchAcross,
      scans tree (by simp)]
    simp only [joined, Array.size_append, scanBack_append _ _ whole, bind_assoc, pure_bind,
      Nat.succ_mul, Nat.sub_sub]
    apply bind_congr
    intro answer
    cases answer with
    | some found => simp [Nat.add_assoc]
    | none =>
      simp only [Option.map_none]
      apply bind_congr
      intro answer
      cases answer <;> simp [searchAcross]

theorem Packed.scansBack (packed : tree.Packed capacity front last) :
    ScansBack capacity test tree := by
  induction level generalizing front last with
  | zero => exact fun _ _ => rfl
  | succ level ih =>
    intro start stop
    obtain ⟨reached, asked, wide, each, reaches⟩ := packed.exists_overlapping start stop
    have scans : ∀ child ∈ reached, ScansBack capacity test child := by
      intro child member
      obtain ⟨_, _, packed⟩ := each child member
      exact ih packed
    simp only [findLast, asked]
    rw [searchAcross_reverse_eq wide scans]
    rcases reaches with ⟨none, nothing⟩ | ⟨earlier, later, parts, size, begun, whole⟩
    · simp only [Nat.sub_eq_zero_of_le none, Nat.sub_eq_zero_of_le nothing, scanBack, pure_bind,
        Option.map_none]
    · rw [parts, Array.size_append, Array.size_append, ← size] at whole ⊢
      exact (scanBack_slice test earlier _ later (size ▸ begun) whole).symm

end Segmented.Tree

namespace Segmented.Sequence.Valid

variable {α S : Type} {s : Sequence α}

theorem findWithin_eq (valid : s.Valid) (test : α → StateM S Bool) (start stop : Nat) :
    s.findWithin test start stop =
      Tree.scan test s.toArray start (min stop s.toArray.size - start) := by
  unfold findWithin
  cases valid with
  | empty root =>
    have none : s.toArray = #[] := Array.ext' (toList_of_root_none root)
    simp [root, none, Tree.scan]
  | tree root packed =>
    have same : s.toArray = _ := Array.ext' (toList_of_root root)
    rw [root, same]
    exact packed.scans start stop

theorem findLastWithin_eq (valid : s.Valid) (test : α → StateM S Bool) (start stop : Nat) :
    s.findLastWithin test start stop =
      Tree.scanBack test s.toArray start (min stop s.toArray.size - start) := by
  unfold findLastWithin
  cases valid with
  | empty root =>
    have none : s.toArray = #[] := Array.ext' (toList_of_root_none root)
    simp [root, none, Tree.scanBack]
  | tree root packed =>
    have same : s.toArray = _ := Array.ext' (toList_of_root root)
    rw [root, same]
    exact packed.scansBack start stop

end Segmented.Sequence.Valid
