import Segmented.Proofs.Cascade
import Segmented.Proofs.Reading
import Segmented.Sequence.Locate

/-! A search through a valid sequence asks about the same positions in the same order as a search
through the array of its elements, whatever the test keeps. -/

namespace Segmented.Tree

variable {α S : Type} {test : α → StateM S Bool}

/-! ### Scans of arrays -/

theorem scan_of_le (test : α → StateM S Bool) {items : Array α} {index : Nat}
    (beyond : items.size ≤ index) (count : Nat) :
    scan test items index count = pure none := by
  cases count with
  | zero => rfl
  | succ count => rw [scan, Array.getElem?_eq_none beyond]

/-- A scan goes on where a shorter one has found nothing. -/
theorem scan_add (items : Array α) (index first second : Nat) :
    scan test items index (first + second) = (do
      match ← scan test items index first with
      | some found => return some found
      | none => scan test items (index + first) second) := by
  induction first generalizing index with
  | zero => simp [scan]
  | succ first ih =>
    rw [Nat.succ_add, scan, scan]
    cases here : items[index]? with
    | none =>
      have beyond := Array.getElem?_eq_none_iff.mp here
      simp [scan_of_le test (Nat.le_add_right_of_le beyond)]
    | some x =>
      simp only [bind_assoc]
      apply bind_congr
      intro answer
      cases answer with
      | true => simp
      | false =>
        simp only [Bool.false_eq_true, if_false, ih]
        rw [Nat.add_assoc, Nat.add_comm 1]

theorem scan_append_left (items later : Array α) {index count : Nat}
    (inside : count ≠ 0 → index + count ≤ items.size) :
    scan test (items ++ later) index count = scan test items index count := by
  induction count generalizing index with
  | zero => rfl
  | succ count ih =>
    have bound := inside (Nat.succ_ne_zero count)
    have here : (items ++ later)[index]? = items[index]? :=
      Array.getElem?_append_left (by omega)
    rw [scan, scan, here, ih fun _ => by omega]

theorem scan_append_right (items later : Array α) (index count : Nat) :
    scan test (items ++ later) (items.size + index) count = (do
      return (← scan test later index count).map (items.size + ·)) := by
  induction count generalizing index with
  | zero => rfl
  | succ count ih =>
    have here : (items ++ later)[items.size + index]? = later[index]? := by
      rw [Array.getElem?_append_right (Nat.le_add_right ..), Nat.add_sub_cancel_left]
    rw [scan, scan, here]
    cases later[index]? with
    | none => simp
    | some x =>
      simp only [bind_assoc]
      apply bind_congr
      intro answer
      cases answer with
      | true => simp
      | false => simpa [Nat.add_assoc] using ih (index + 1)

/-- A range of two joined arrays is searched in the first and then in the second. -/
theorem scan_append (items later : Array α) {width : Nat}
    (whole : later.size = 0 ∨ items.size = width) (start stop : Nat) :
    scan test (items ++ later) start (min stop (items.size + later.size) - start) = (do
      match ← scan test items start (min stop items.size - start) with
      | some found => return some found
      | none =>
        return (← scan test later (start - width)
          (min (stop - width) later.size - (start - width))).map (width + ·)) := by
  rcases whole with none | rfl
  · obtain rfl := Array.eq_empty_of_size_eq_zero none
    rw [Array.append_empty, Array.size_empty, Nat.add_zero]
    conv_lhs => rw [← bind_pure (scan test items start (min stop items.size - start))]
    apply bind_congr
    intro answer
    cases answer <;> simp [scan_of_le]
  · rcases Nat.le_total start items.size with inside | beyond
    · have count : min stop (items.size + later.size) - start =
          (min stop items.size - start) + (min (stop - items.size) later.size) := by omega
      rw [count, scan_add, scan_append_left items later (fun _ => by omega),
        Nat.sub_eq_zero_of_le inside]
      apply bind_congr
      intro answer
      cases answer with
      | some found => rfl
      | none =>
        rcases Nat.le_total stop items.size with short | long
        · simp [Nat.sub_eq_zero_of_le short, scan]
        · have next : start + (min stop items.size - start) = items.size + 0 := by omega
          rw [next, scan_append_right]
          rfl
    · obtain ⟨offset, rfl⟩ : ∃ offset, start = items.size + offset :=
        ⟨start - items.size, by omega⟩
      have count : min stop items.size - (items.size + offset) = 0 := by omega
      have count' : min stop (items.size + later.size) - (items.size + offset) =
          min (stop - items.size) later.size - offset := by omega
      rw [count, count', scan, pure_bind, Nat.add_sub_cancel_left]
      exact scan_append_right items later offset _

/-- A test without a state finds the first position of the range that passes it. -/
theorem scan_pure (holds : α → Bool) (items : Array α) (index count : Nat) :
    scan (S := S) (fun x => pure (holds x)) items index count =
      pure ((((items.toList.drop index).take count).findIdx? holds).map (index + ·)) := by
  induction count generalizing index with
  | zero => rfl
  | succ count ih =>
    rw [scan]
    cases here : items[index]? with
    | none =>
      have passed : items.toList.drop index = [] :=
        List.drop_of_length_le (by simpa using here)
      simp [passed]
    | some x =>
      obtain ⟨inside, rfl⟩ := Array.getElem?_eq_some_iff.mp here
      rw [List.drop_eq_getElem_cons (by simpa using inside), List.take_succ_cons,
        List.findIdx?_cons, Array.getElem_toList]
      simp only [pure_bind, ih]
      cases holds items[index] with
      | true => rfl
      | false =>
        simp only [Bool.false_eq_true, if_false, Option.map_map]
        exact congrArg (fun shift => pure (Option.map shift _))
          (funext fun offset => Nat.add_right_comm ..)

/-! ### Searches of trees -/

variable {level capacity : Nat} {tree : Tree α level} {front : List (Buffer α)}
  {last : Buffer α}

/-- The search of a tree is the scan of its elements. -/
def Scans (capacity : Nat) (test : α → StateM S Bool) (tree : Tree α level) : Prop :=
  ∀ start stop, tree.find capacity test start stop =
    scan test tree.toArray start (min stop tree.toArray.size - start)

theorem searchAcross_eq {trees : List (Tree α level)} {width : Nat}
    (wide : ∀ tree ∈ trees.dropLast, tree.toArray.size = width)
    (scans : ∀ tree ∈ trees, Scans capacity test tree) (position start stop : Nat) :
    searchAcross (fun start stop child => find capacity test start stop child) width start stop
        (trees.zipIdx position) = (do
      let items := (trees.flatMap toList).toArray
      return (← scan test items (start - position * width)
        (min (stop - position * width) items.size - (start - position * width))).map
          (position * width + ·)) := by
  induction trees generalizing position with
  | nil => simp [searchAcross, scan_of_le]
  | cons tree rest ih =>
    have joined : (List.flatMap toList (tree :: rest)).toArray =
        tree.toArray ++ (rest.flatMap toList).toArray := by
      rw [List.flatMap_cons, ← List.append_toArray]
      rfl
    have whole : (rest.flatMap toList).toArray.size = 0 ∨ tree.toArray.size = width := by
      cases rest with
      | nil => exact .inl rfl
      | cons next others => exact .inr (wide tree (by simp))
    have inner : ∀ other ∈ rest.dropLast, other.toArray.size = width := by
      intro other member
      have some : rest ≠ [] := List.ne_nil_of_mem (List.mem_of_mem_dropLast member)
      exact wide other (by simp [List.dropLast_cons_of_ne_nil some, member])
    have others := ih inner
      (fun tree member => scans tree (by simp [member])) (position + 1)
    rw [List.zipIdx_cons, searchAcross, scans tree (by simp)]
    simp only [joined, Array.size_append, scan_append _ _ whole, others, bind_assoc]
    apply bind_congr
    intro answer
    cases answer with
    | some found => simp
    | none =>
      simp only [Nat.succ_mul, bind_assoc, pure_bind, Nat.sub_sub, Option.map_map]
      refine bind_congr fun answer => congrArg pure ?_
      exact congrArg (Option.map · answer) (funext fun x => Nat.add_assoc ..)

/-- A range that begins past the last child reaches into no child, and holds no element. -/
theorem reaches_nothing {trees : List (Tree α level)} {child : Tree α level} {width : Nat}
    (positive : 0 < width) (wide : ∀ tree ∈ trees, tree.toList.length = width)
    (bound : child.toList.length ≤ width) {start : Nat} (past : trees.length < start / width)
    (stop : Nat) :
    ((trees ++ [child]).take ((stop - 1) / width + 1)).drop (start / width) = [] ∧
      ((trees ++ [child]).flatMap toList).length ≤ start := by
  constructor
  · apply List.drop_of_length_le
    refine Nat.le_trans (List.length_take_le' ..) ?_
    rw [List.length_append]
    exact past
  · have below : (trees.length + 1) * width ≤ start := (Nat.le_div_iff_mul_le positive).mp past
    rw [List.flatMap_append, List.length_append, length_flatMap_of_width wide,
      List.flatMap_singleton]
    rw [Nat.succ_mul] at below
    omega

/-- The children that reach into a range hold all of its elements. -/
theorem exists_reached {trees : List (Tree α level)} (child : Tree α level) {width : Nat}
    (positive : 0 < width) (wide : ∀ tree ∈ trees, tree.toList.length = width) {start stop : Nat}
    (some : start < stop) (inside : start / width ≤ trees.length) :
    ∃ earlier reached later, trees ++ [child] = earlier ++ (reached ++ later) ∧
      ((trees ++ [child]).take ((stop - 1) / width + 1)).drop (start / width) = reached ∧
      (earlier.flatMap toList).length = start / width * width ∧
      min stop ((trees ++ [child]).flatMap toList).length ≤
        start / width * width + (reached.flatMap toList).length := by
  have order : start / width ≤ (stop - 1) / width + 1 :=
    Nat.le_succ_of_le (Nat.div_le_div_right (by omega))
  have parts := List.take_append_drop (start / width)
    ((trees ++ [child]).take ((stop - 1) / width + 1))
  rw [List.take_take, Nat.min_eq_left order] at parts
  have front : (((trees ++ [child]).take (start / width)).flatMap toList).length =
      start / width * width := by
    rw [List.take_append_of_le_length inside, length_flatMap_of_width fun tree member =>
      wide tree (List.mem_of_mem_take member), List.length_take, Nat.min_eq_left inside]
  refine ⟨(trees ++ [child]).take (start / width), _,
    (trees ++ [child]).drop ((stop - 1) / width + 1), ?_, rfl, front, ?_⟩
  · rw [← List.append_assoc, parts, List.take_append_drop]
  · rw [← front, ← List.length_append, ← List.flatMap_append, parts]
    rcases Nat.lt_or_ge ((stop - 1) / width) trees.length with before | atEnd
    · have before : (stop - 1) / width + 1 ≤ trees.length := before
      rw [List.take_append_of_le_length before, length_flatMap_of_width fun tree member =>
        wide tree (List.mem_of_mem_take member), List.length_take, Nat.min_eq_left before]
      have bound := Nat.lt_mul_div_succ (stop - 1) positive
      rw [Nat.mul_comm] at bound
      omega
    · rw [List.take_of_length_le (by simpa using atEnd)]
      exact Nat.min_le_right ..

theorem mem_of_mem_dropLast_slice {τ : Type} {row : List τ} {last item : τ} {first beyond : Nat}
    (member : item ∈ (((row ++ [last]).take beyond).drop first).dropLast) : item ∈ row := by
  rcases Nat.lt_or_ge row.length beyond with all | part
  · rw [List.take_of_length_le (by simp; omega)] at member
    rcases Nat.lt_or_ge row.length first with none | some
    · rw [List.drop_of_length_le (by simp; omega)] at member
      cases member
    · rw [List.drop_append_of_le_length some, List.dropLast_concat] at member
      exact List.mem_of_mem_drop member
  · rw [List.take_append_of_le_length part] at member
    exact List.mem_of_mem_take (List.mem_of_mem_drop (List.mem_of_mem_dropLast member))

/-- The part of a range that a slice of a row has is searched in the slice alone. -/
theorem scan_slice (test : α → StateM S Bool) (earlier reached later : Array α) {start stop : Nat}
    (begun : earlier.size ≤ start)
    (whole : min stop (earlier.size + (reached.size + later.size)) ≤
      earlier.size + reached.size) :
    scan test (earlier ++ (reached ++ later)) start
        (min stop (earlier.size + (reached.size + later.size)) - start) = (do
      return (← scan test reached (start - earlier.size)
        (min (stop - earlier.size) reached.size - (start - earlier.size))).map
          (earlier.size + ·)) := by
  obtain ⟨offset, rfl⟩ := Nat.exists_eq_add_of_le begun
  have count : min stop (earlier.size + (reached.size + later.size)) - (earlier.size + offset) =
      min (stop - earlier.size) reached.size - offset := by omega
  rw [count, scan_append_right, Nat.add_sub_cancel_left,
    scan_append_left reached later fun _ => by omega]

/-- What a search of a range of `items` asks, when the children of the given items are the ones that
reach into it and begin at `base`: there is nothing to ask about, or they hold all of the range. -/
def Reaches (start stop base : Nat) (items reached : Array α) : Prop :=
  (min stop items.size ≤ start ∧ min (stop - base) reached.size ≤ start - base) ∨
    ∃ earlier later : Array α, items = earlier ++ (reached ++ later) ∧ earlier.size = base ∧
      base ≤ start ∧ min stop items.size ≤ base + reached.size

/-- The children that a search of a range of a branch asks: all but the last of them are complete. -/
theorem Packed.exists_overlapping {children : Tree α (level + 1)}
    (packed : children.Packed capacity front last) (start stop : Nat) :
    ∃ reached : List (Tree α level),
      overlapping (span capacity level) start stop children =
        reached.zipIdx (start / span capacity level) ∧
      (∀ child ∈ reached.dropLast, child.toArray.size = span capacity level) ∧
      (∀ child ∈ reached, ∃ front last, child.Packed capacity front last) ∧
      Reaches start stop (start / span capacity level * span capacity level) children.toArray
        (reached.flatMap toList).toArray := by
  obtain ⟨before, child, rfl, -⟩ := packed.shaped
  obtain ⟨inner, innerPacked, -, -, complete⟩ := packed.exists_inner
  have positive := packed.capacity_pos
  have wide := span_pos positive level
  have width : ∀ tree ∈ before.toList, tree.toList.length = span capacity level :=
    fun tree member => (complete tree member).length_toList
  have slice (first beyond : Nat) : ((before.push child).extract first beyond).toList =
      ((before.toList ++ [child]).take beyond).drop first := by
    simp [List.drop_take]
  have elements : @toArray α (level + 1) (before.push child) =
      ((before.toList ++ [child]).flatMap toList).toArray := by
    apply Array.ext'
    rw [← Array.toList_push, ← toList_branch]
    rfl
  refine ⟨((before.toList ++ [child]).take ((stop - 1) / span capacity level + 1)).drop
      (start / span capacity level), by simp only [overlapping, slice],
    fun tree member => width tree (mem_of_mem_dropLast_slice member), ?_, ?_⟩
  · intro tree member
    rcases List.mem_append.mp (List.mem_of_mem_take (List.mem_of_mem_drop member)) with old | new
    · obtain ⟨_, _, packed, -⟩ := (complete tree old).exists_packed positive
      exact ⟨_, _, packed⟩
    · exact List.mem_singleton.mp new ▸ ⟨_, _, innerPacked⟩
  · rw [elements]
    rcases Nat.lt_or_ge start stop with some | none
    · rcases Nat.lt_or_ge before.toList.length (start / span capacity level) with past | inside
      · obtain ⟨none, total⟩ := reaches_nothing wide width innerPacked.length_le_span past stop
        rw [none]
        exact .inl ⟨Nat.le_trans (Nat.min_le_right ..) total, by simp⟩
      · obtain ⟨earlier, reached, later, parts, slice, size, bound⟩ :=
          exists_reached child wide width some inside
        refine .inr ⟨(earlier.flatMap toList).toArray, (later.flatMap toList).toArray, ?_, size,
          Nat.div_mul_le_self .., ?_⟩
        · rw [slice, parts]
          simp
        · rw [slice]
          exact bound
    · exact .inl ⟨by omega, by omega⟩

theorem Packed.scans (packed : tree.Packed capacity front last) : Scans capacity test tree := by
  induction level generalizing front last with
  | zero => exact fun _ _ => rfl
  | succ level ih =>
    intro start stop
    obtain ⟨reached, asked, wide, each, reaches⟩ := packed.exists_overlapping start stop
    have scans : ∀ child ∈ reached, Scans capacity test child := by
      intro child member
      obtain ⟨_, _, packed⟩ := each child member
      exact ih packed
    simp only [find, asked]
    rw [searchAcross_eq wide scans]
    rcases reaches with ⟨none, nothing⟩ | ⟨earlier, later, parts, size, begun, whole⟩
    · simp only [Nat.sub_eq_zero_of_le none, Nat.sub_eq_zero_of_le nothing, scan, pure_bind,
        Option.map_none]
    · rw [parts, Array.size_append, Array.size_append, ← size] at whole ⊢
      exact (scan_slice test earlier _ later (size ▸ begun) whole).symm

end Segmented.Tree

namespace Segmented.Sequence.Valid

variable {α S : Type} {s : Sequence α}

theorem find_eq (valid : s.Valid) (test : α → StateM S Bool) (start : Nat) :
    s.find test start = Tree.scan test s.toArray start (s.toArray.size - start) := by
  have length : s.length = s.toArray.size := valid.length_eq
  unfold find findWithin
  split
  · cases valid with
    | empty root zero =>
      have none : s.toArray = #[] := Array.ext' (toList_of_root_none root)
      simp [root, none, Tree.scan]
    | tree root packed =>
      have same : s.toArray = _ := Array.ext' (toList_of_root root)
      rw [root, same]
      dsimp only
      rw [packed.scans, length, same, Nat.min_self]
  · rename_i beyond
    have count : s.toArray.size - start = 0 := by omega
    rw [count]
    rfl

theorem indexOf?_eq [BEq α] (valid : s.Valid) (x : α) :
    s.indexOf? x = s.toList.findIdx? (· == x) := by
  unfold indexOf? indexOfFrom?
  rw [valid.find_eq, Tree.scan_pure, Nat.sub_zero, List.drop_zero, ← Array.length_toList,
    List.take_length]
  simp only [Nat.zero_add, Option.map_id']
  rfl

end Segmented.Sequence.Valid
