import Segmented.Proofs.CheckedCarry
import Segmented.Proofs.SearchLast

/-! Linear search of a tree with every check it makes: where a child begins, what is left of the
range there, and where in the tree an element of a child is. The children are asked in turn until
one of them begins beyond the range, or before it when they are asked from the last on. -/

namespace Segmented

variable {α S ρ τ : Type}

/-- A search with a test that keeps a state; it may stop at a fault. -/
abbrev Inquiry (S ρ : Type) := ExceptT Fault (StateM S) ρ

namespace Inquiry

/-- A step in which there is nothing to check. -/
def lift (plain : StateM S ρ) : Inquiry S ρ := ExceptT.lift plain

theorem lift_pure (answer : ρ) : lift (pure answer : StateM S ρ) = pure answer := rfl

/-- What follows a step without checks may rely on what the step is known to answer. -/
theorem lift_bind {plain : StateM S ρ} (post : ρ → Prop)
    (holds : ∀ state, post (plain.run state).1) {next : ρ → Inquiry S τ} {later : ρ → StateM S τ}
    (same : ∀ answer, post answer → next answer = lift (later answer)) :
    lift plain >>= next = lift (plain >>= later) := by
  funext state
  have known := same _ (holds state)
  exact congrFun known (plain.run state).2

end Inquiry

open Inquiry (lift)

namespace Tree

/-! ### The checked searches -/

/-- Searches a window that begins at `start`, and answers the position outside of the window. -/
def foundFrom (start : Nat) (search : StateM S (Option Nat)) : Inquiry S (Option Nat) := do
  match ← lift search with
  | none => return none
  | some found => return some (← Word.add 64 found start)

/-- Searches an array from `start` below `stop`, which have to be a range of it. -/
def checkedScan (test : α → StateM S Bool) (items : Array α) (start stop : Nat) :
    Inquiry S (Option Nat) := do
  let window ← Row.slice items start stop
  foundFrom start (scan test window 0 window.size)

def checkedScanBack (test : α → StateM S Bool) (items : Array α) (start stop : Nat) :
    Inquiry S (Option Nat) := do
  let window ← Row.slice items start stop
  foundFrom start (scanBack test window 0 window.size)

/-- Asks the children from the one at `position` on, the first of them from `offset` on, as long as
they begin before `stop`. -/
def checkedSearchAcross {level : Nat} (options : Options)
    (search : Nat → Nat → Tree α level → Inquiry S (Option Nat)) (stop : Nat) :
    Nat → Nat → List (Tree α level) → Inquiry S (Option Nat)
  | _, _, [] => return none
  | position, offset, child :: rest => do
    let base ← baseOf options level position
    if stop ≤ base then
      return none
    else
      let beyond ← Word.sub stop base
      match ← search offset beyond child with
      | some found => return some (← Word.add 64 base found)
      | none => checkedSearchAcross options search stop (position + 1) 0 rest

def checkedFind (options : Options) (test : α → StateM S Bool) :
    {level : Nat} → Nat → Nat → Tree α level → Inquiry S (Option Nat)
  | 0, start, stop, (buffer : Buffer α) =>
    if start ≤ min stop buffer.size then
      checkedScan test buffer.items start (min stop buffer.size)
    else
      return none
  | level + 1, start, stop, (children : Array (Tree α level)) => do
    let (current, offset) ← split options level start
    checkedSearchAcross options (fun start stop child => checkedFind options test start stop child)
      stop current offset (children.toList.drop current)

/-- Asks the children below `position`, the last first, down to the one in which the range
starts. -/
def checkedSearchDown {level : Nat} (options : Options)
    (search : Nat → Nat → Tree α level → Inquiry S (Option Nat)) (start stop : Nat)
    (children : Array (Tree α level)) : Nat → Inquiry S (Option Nat)
  | 0 => return none
  | position + 1 => do
    let base ← baseOf options level position
    let child ← Row.read children position
    let beyond ← Word.sub stop base
    match ← search (start - base) beyond child with
    | some found => return some (← Word.add 64 base found)
    | none =>
      if base ≤ start then
        return none
      else
        checkedSearchDown options search start stop children position

def checkedFindLast (options : Options) (test : α → StateM S Bool) :
    {level : Nat} → Nat → Nat → Tree α level → Inquiry S (Option Nat)
  | 0, start, stop, (buffer : Buffer α) =>
    if start < stop then
      if start ≤ min stop buffer.size then
        checkedScanBack test buffer.items start (min stop buffer.size)
      else
        return none
    else
      return none
  | level + 1, start, stop, (children : Array (Tree α level)) => do
    if start < stop then
      let beyond ← Word.sub stop 1
      let (last, _) ← split options level beyond
      match children.size with
      | 0 => return none
      | count + 1 =>
        checkedSearchDown options
          (fun start stop child => checkedFindLast options test start stop child) start stop
          children (min last count + 1)
    else
      return none

/-! ### Windows -/

variable {test : α → StateM S Bool} {items : Array α} {start stop : Nat}

/-- Whatever the search finds lies below `size`. -/
def FindsBelow (size : Nat) (search : StateM S (Option Nat)) : Prop :=
  ∀ state, ∀ found ∈ (search.run state).1, found < size

theorem findsBelow_scan (test : α → StateM S Bool) (items : Array α) (index count : Nat) :
    FindsBelow items.size (scan test items index count) := by
  induction count generalizing index with
  | zero => exact fun _ found none => absurd none (Option.not_mem_none found)
  | succ count ih =>
    intro state
    rw [scan]
    cases here : items[index]? with
    | none => exact fun found none => absurd none (Option.not_mem_none found)
    | some x =>
      obtain ⟨inside, -⟩ := Array.getElem?_eq_some_iff.mp here
      dsimp only
      rw [StateT.run_bind]
      cases (test x).run state with
      | mk passed state =>
        cases passed with
        | true => exact fun found same => Option.some.inj same ▸ inside
        | false => exact ih (index + 1) state

theorem findsBelow_scanBack (test : α → StateM S Bool) (items : Array α) (start count : Nat) :
    FindsBelow items.size (scanBack test items start count) := by
  induction count with
  | zero => exact fun _ found none => absurd none (Option.not_mem_none found)
  | succ count ih =>
    intro state
    rw [scanBack]
    cases here : items[start + count]? with
    | none => exact fun found none => absurd none (Option.not_mem_none found)
    | some x =>
      obtain ⟨inside, -⟩ := Array.getElem?_eq_some_iff.mp here
      dsimp only
      rw [StateT.run_bind]
      cases (test x).run state with
      | mk passed state =>
        cases passed with
        | true => exact fun found same => Option.some.inj same ▸ inside
        | false => exact ih state

/-- What is found in a window is a position of a word. -/
theorem foundFrom_eq {search : StateM S (Option Nat)} {size : Nat}
    (below : FindsBelow size search) (small : start + size < 2 ^ 64) :
    foundFrom start search = lift (do return (← search).map (start + ·)) := by
  refine Inquiry.lift_bind (fun answer => ∀ found ∈ answer, found < size) below
    fun answer known => ?_
  cases answer with
  | none => rfl
  | some found =>
    have bound := known found rfl
    dsimp only
    rw [Word.add_eq (by omega), liftM_ok_bind, Nat.add_comm]
    rfl

/-- An array is the part in front of a range, the range, and the part behind it. -/
theorem exists_parts (order : start ≤ stop) (inside : stop ≤ items.size) :
    ∃ earlier later : Array α, items = earlier ++ (items.extract start stop ++ later) ∧
      earlier.size = start ∧ (items.extract start stop).size = stop - start ∧
      stop + later.size = items.size := by
  refine ⟨items.extract 0 start, items.extract stop items.size, ?_, ?_, ?_, ?_⟩
  · have whole : max start items.size = items.size := by omega
    simp [order, inside, whole]
  all_goals rw [Array.size_extract]; omega

theorem checkedScan_eq (order : start ≤ stop) (inside : stop ≤ items.size)
    (small : stop < 2 ^ 64) :
    checkedScan test items start stop = lift (scan test items start (stop - start)) := by
  obtain ⟨earlier, later, parts, front, window, rest⟩ := exists_parts order inside
  have slice := scan_slice test earlier (items.extract start stop) later (Nat.le_of_eq front)
    (show min stop _ ≤ _ by omega)
  have whole : min stop (earlier.size + ((items.extract start stop).size + later.size)) = stop := by
    omega
  rw [← parts, whole, front, Nat.sub_self, Nat.sub_zero, ← window, Nat.min_self] at slice
  unfold checkedScan
  rw [Row.slice_eq order inside, liftM_ok_bind,
    foundFrom_eq (findsBelow_scan test _ 0 _) (by rw [window]; omega), ← slice, window]

theorem checkedScanBack_eq (order : start ≤ stop) (inside : stop ≤ items.size)
    (small : stop < 2 ^ 64) :
    checkedScanBack test items start stop = lift (scanBack test items start (stop - start)) := by
  obtain ⟨earlier, later, parts, front, window, rest⟩ := exists_parts order inside
  have slice := scanBack_slice test earlier (items.extract start stop) later (Nat.le_of_eq front)
    (show min stop _ ≤ _ by omega)
  have whole : min stop (earlier.size + ((items.extract start stop).size + later.size)) = stop := by
    omega
  rw [← parts, whole, front, Nat.sub_self, Nat.sub_zero, ← window, Nat.min_self] at slice
  unfold checkedScanBack
  rw [Row.slice_eq order inside, liftM_ok_bind,
    foundFrom_eq (findsBelow_scanBack test _ 0 _) (by rw [window]; omega), ← slice, window]

/-! ### Trees -/

variable {level : Nat} {options : Options} {tree : Tree α level} {front : List (Buffer α)}
  {last : Buffer α}

/-- The checked search of a tree is the scan of its elements. -/
def ChecksScan (options : Options) (test : α → StateM S Bool) (tree : Tree α level) : Prop :=
  ∀ start stop, start < 2 ^ 64 → stop < 2 ^ 64 → tree.checkedFind options test start stop =
    lift (scan test tree.toArray start (min stop tree.toArray.size - start))

theorem checkedSearchAcross_eq {trees : List (Tree α level)}
    (wide : ∀ tree ∈ trees.dropLast, tree.toArray.size = span options.segmentCapacity level)
    (scans : ∀ tree ∈ trees, ChecksScan options test tree) {position offset stop : Nat}
    (small : trees ≠ [] →
      position * span options.segmentCapacity level + (trees.flatMap toList).length < 2 ^ 64)
    (short : offset < span options.segmentCapacity level) (inWord : offset < 2 ^ 64)
    (inWord' : stop < 2 ^ 64) :
    checkedSearchAcross options (fun start stop child => checkedFind options test start stop child)
        stop position offset trees = lift (do
      let base := position * span options.segmentCapacity level
      let items := (trees.flatMap toList).toArray
      let count := min (stop - base) items.size - offset
      return (← scan test items offset count).map (base + ·)) := by
  induction trees generalizing position offset with
  | nil => simp [checkedSearchAcross, scan_of_le, Inquiry.lift_pure]
  | cons tree rest ih =>
    have small := small nofun
    rw [List.flatMap_cons, List.length_append] at small
    have joined : (List.flatMap toList (tree :: rest)).toArray =
        tree.toArray ++ (rest.flatMap toList).toArray := by
      rw [List.flatMap_cons, ← List.append_toArray]
      rfl
    -- Only the last child may hold less than its span, and nothing is searched behind that one.
    have whole : (rest.flatMap toList).toArray.size = 0 ∨
        tree.toArray.size = span options.segmentCapacity level := by
      cases rest with
      | nil => exact .inl rfl
      | cons next others => exact .inr (wide tree (by simp))
    simp only [checkedSearchAcross]
    rw [baseOf_eq (by omega), liftM_ok_bind]
    by_cases beyond : stop ≤ position * span options.segmentCapacity level
    · rw [if_pos beyond, Nat.sub_eq_zero_of_le beyond, Nat.zero_min, Nat.zero_sub]
      rfl
    rw [if_neg beyond, Word.sub_eq (by omega), liftM_ok_bind,
      scans tree (by simp) _ _ inWord (by omega)]
    simp only [joined, Array.size_append, scan_append _ _ whole, bind_assoc]
    refine Inquiry.lift_bind (fun answer => ∀ found ∈ answer, found < tree.toArray.size)
      (findsBelow_scan test _ offset _) fun answer known => ?_
    cases answer with
    | some found =>
      have bound : found < tree.toList.length := known found rfl
      dsimp only
      rw [Word.add_eq (by omega), liftM_ok_bind, pure_bind]
      rfl
    | none =>
      have wide' : ∀ other ∈ rest.dropLast,
          other.toArray.size = span options.segmentCapacity level := by
        intro other member
        have some : rest ≠ [] := List.ne_nil_of_mem (List.mem_of_mem_dropLast member)
        exact wide other (by simp [List.dropLast_cons_of_ne_nil some, member])
      have small' (some : rest ≠ []) : (position + 1) * span options.segmentCapacity level +
          (rest.flatMap toList).length < 2 ^ 64 := by
        obtain ⟨next, others, rfl⟩ := List.exists_cons_of_ne_nil some
        have full : tree.toList.length = _ := wide tree (by simp)
        rw [Nat.succ_mul]
        omega
      dsimp only
      rw [ih wide' (fun tree member => scans tree (by simp [member])) small'
        (Nat.zero_lt_of_lt short) (by decide)]
      simp only [bind_assoc, pure_bind, Option.map_map, Nat.sub_eq_zero_of_le (Nat.le_of_lt short),
        Nat.succ_mul, Nat.sub_sub]
      refine congrArg lift (bind_congr fun answer => congrArg pure ?_)
      exact congrArg (Option.map · answer) (funext fun x => Nat.add_assoc ..)

theorem toArray_branch (children : Array (Tree α level)) :
    @toArray α (level + 1) children = (children.toList.flatMap toList).toArray :=
  Array.ext' (by rw [← toList_branch]; rfl)

/-- The children from the one in which a range starts hold all that there is from there on. -/
theorem length_from_child {trees : List (Tree α level)} (child : Tree α level) {width : Nat}
    (wide : ∀ tree ∈ trees, tree.toList.length = width) {current : Nat}
    (inside : current ≤ trees.length) :
    (((trees ++ [child]).take current).flatMap toList).length = current * width ∧
      current * width + (((trees ++ [child]).drop current).flatMap toList).length =
        ((trees ++ [child]).flatMap toList).length := by
  have front : (((trees ++ [child]).take current).flatMap toList).length = current * width := by
    rw [List.take_append_of_le_length inside, length_flatMap_of_width fun tree member =>
      wide tree (List.mem_of_mem_take member), List.length_take, Nat.min_eq_left inside]
  refine ⟨front, ?_⟩
  conv_rhs => rw [← List.take_append_drop current (trees ++ [child]), List.flatMap_append,
    List.length_append, front]

/-- A range is searched from the child on in which it starts. -/
theorem scan_from_child {trees : List (Tree α level)} {child : Tree α level} {width : Nat}
    (positive : 0 < width) (wide : ∀ tree ∈ trees, tree.toList.length = width)
    (bound : child.toList.length ≤ width) (start stop : Nat) :
    scan test ((trees ++ [child]).flatMap toList).toArray start
        (min stop ((trees ++ [child]).flatMap toList).toArray.size - start) = (do
      let items := (((trees ++ [child]).drop (start / width)).flatMap toList).toArray
      return (← scan test items (start % width)
        (min (stop - start / width * width) items.size - start % width)).map
          (start / width * width + ·)) := by
  rcases Nat.lt_or_ge trees.length (start / width) with past | inside
  · obtain ⟨-, total⟩ := reaches_nothing positive wide bound past stop
    have beyond : ((trees ++ [child]).flatMap toList).toArray.size ≤ start := total
    have none : (trees ++ [child]).drop (start / width) = [] :=
      List.drop_of_length_le (by rw [List.length_append]; exact past)
    rw [scan_of_le test beyond]
    simp [none, scan_of_le]
  · obtain ⟨front, total⟩ := length_from_child child wide inside
    have slice := scan_slice test
      (((trees ++ [child]).take (start / width)).flatMap toList).toArray
      (((trees ++ [child]).drop (start / width)).flatMap toList).toArray #[]
      (show _ ≤ start by rw [List.size_toArray, front]; exact Nat.div_mul_le_self ..)
      (show min stop _ ≤ _ from Nat.min_le_right ..)
    rw [Array.append_empty, List.append_toArray, ← List.flatMap_append, List.take_append_drop,
      Array.size_empty, Nat.add_zero, List.size_toArray, front, List.size_toArray, total] at slice
    rw [Nat.mod_eq_sub_div_mul]
    exact slice

theorem checkedFind_branch (inWord : start < 2 ^ 64) (stop : Nat)
    (children : Array (Tree α level)) :
    @checkedFind α S options test (level + 1) start stop children =
      checkedSearchAcross options
        (fun start stop child => checkedFind options test start stop child) stop
        (start / span options.segmentCapacity level) (start % span options.segmentCapacity level)
        (children.toList.drop (start / span options.segmentCapacity level)) := by
  simp only [checkedFind]
  rw [split_eq inWord]
  exact liftM_ok_bind _ _

theorem Packed.checksScan (packed : tree.Packed options.segmentCapacity front last)
    (small : tree.toList.length < 2 ^ 64) : ChecksScan options test tree := by
  induction level generalizing front last with
  | zero =>
    change Buffer α at tree
    intro start stop _ inWord
    simp only [checkedFind]
    split
    · rename_i order
      exact checkedScan_eq order (Nat.min_le_right ..)
        (Nat.lt_of_le_of_lt (Nat.min_le_left ..) inWord)
    · rename_i none
      have count : min stop (@toArray α 0 tree).size - start = 0 :=
        Nat.sub_eq_zero_of_le (Nat.le_of_not_le none)
      rw [count]
      rfl
  | succ level ih =>
    intro start stop inWord inWord'
    obtain ⟨before, child, rfl, -⟩ := packed.shaped
    have each := packed.each_child small
    obtain ⟨inner, innerPacked, -, -, complete⟩ := packed.exists_inner
    have positive := span_pos packed.capacity_pos level
    have width : ∀ tree ∈ before.toList, tree.toList.length = span options.segmentCapacity level :=
      fun tree member => (complete tree member).length_toList
    rw [checkedFind_branch inWord, toArray_branch]
    rw [toList_branch] at small
    rw [Array.toList_push] at each small ⊢
    rw [scan_from_child positive width innerPacked.length_le_span]
    refine checkedSearchAcross_eq ?_ ?_ ?_ (Nat.mod_lt _ positive)
      (Nat.lt_of_le_of_lt (Nat.mod_le ..) inWord) inWord'
    · intro tree member
      rw [← List.take_length (l := before.toList ++ [child])] at member
      exact width tree (mem_of_mem_dropLast_slice member)
    · intro tree member
      obtain ⟨⟨_, _, packed⟩, small⟩ := each tree (List.mem_of_mem_drop member)
      exact ih packed small
    · intro some
      have inside : start / span options.segmentCapacity level ≤ before.toList.length := by
        have := List.length_pos_of_ne_nil some
        simp at this ⊢
        omega
      rwa [(length_from_child child width inside).2]

/-! ### Trees from the end -/

/-- The checked search of a tree from the end is the scan of its elements from the end. -/
def ChecksScanBack (options : Options) (test : α → StateM S Bool) (tree : Tree α level) : Prop :=
  ∀ start stop, start < 2 ^ 64 → stop < 2 ^ 64 → tree.checkedFindLast options test start stop =
    lift (scanBack test tree.toArray start (min stop tree.toArray.size - start))

/-- The children below a position are searched from the last of them on. -/
theorem checkedSearchDown_eq {trees : List (Tree α level)} {child : Tree α level}
    (wide : ∀ tree ∈ trees, tree.toList.length = span options.segmentCapacity level)
    (scans : ∀ tree ∈ trees ++ [child], ChecksScanBack options test tree)
    (small : ((trees ++ [child]).flatMap toList).length < 2 ^ 64) (inWord : start < 2 ^ 64)
    (inWord' : stop < 2 ^ 64) {position : Nat} (inside : position ≤ trees.length + 1)
    (reaches : ∀ before, position = before + 1 →
      before * span options.segmentCapacity level < stop) :
    checkedSearchDown options
        (fun start stop child => checkedFindLast options test start stop child) start stop
        (trees ++ [child]).toArray position = lift (
      let items := (((trees ++ [child]).take position).flatMap toList).toArray
      scanBack test items start (min stop items.size - start)) := by
  induction position with
  | zero => simp [checkedSearchDown, scanBack, Inquiry.lift_pure]
  | succ position ih =>
    have reaches := reaches position rfl
    have atChild : position < (trees ++ [child]).length := by simp; omega
    obtain ⟨front, total⟩ := length_from_child child wide (Nat.le_of_lt_succ inside)
    have joined : (((trees ++ [child]).take (position + 1)).flatMap toList).toArray =
        (((trees ++ [child]).take position).flatMap toList).toArray ++
          (trees ++ [child])[position].toArray := by
      rw [List.take_succ_eq_append_getElem atChild, List.flatMap_append, List.flatMap_singleton,
        ← List.append_toArray]
      rfl
    have whole : (((trees ++ [child]).take position).flatMap toList).toArray.size =
        position * span options.segmentCapacity level := front
    have fits : position * span options.segmentCapacity level +
        (trees ++ [child])[position].toArray.size < 2 ^ 64 := by
      refine Nat.lt_of_le_of_lt ?_ small
      rw [← total, List.drop_eq_getElem_cons atChild, List.flatMap_cons, List.length_append]
      exact Nat.add_le_add_left (Nat.le_add_right ..) _
    have found : Row.read (trees ++ [child]).toArray position = .ok (trees ++ [child])[position] :=
      Row.read_eq (by simp)
    rw [checkedSearchDown, baseOf_eq (by omega), liftM_ok_bind, found, liftM_ok_bind,
      Word.sub_eq (Nat.le_of_lt reaches), liftM_ok_bind,
      scans _ (List.getElem_mem atChild) _ _ (by omega) (by omega)]
    simp only [joined, Array.size_append, scanBack_append _ _ (.inr whole)]
    refine Inquiry.lift_bind
      (fun answer => ∀ found ∈ answer, found < (trees ++ [child])[position].toArray.size)
      (findsBelow_scanBack test (trees ++ [child])[position].toArray _ _) fun answer known => ?_
    cases answer with
    | some found =>
      have bound := known found rfl
      dsimp only
      rw [Word.add_eq (by omega), liftM_ok_bind]
      rfl
    | none =>
      dsimp only
      split
      · rename_i first
        have count : min stop (((trees ++ [child]).take position).flatMap toList).toArray.size -
            start = 0 := by
          rw [whole]
          omega
        rw [count]
        rfl
      · -- The search goes on below only while the stop lies behind the base of the next child.
        refine ih (by omega) fun before same => ?_
        subst same
        rw [Nat.succ_mul] at reaches
        omega

/-- A range is searched from the end in the children up to the one in which it stops. -/
theorem scanBack_to_child {trees : List (Tree α level)} {child : Tree α level} {width : Nat}
    (positive : 0 < width) (wide : ∀ tree ∈ trees, tree.toList.length = width)
    (order : start < stop) :
    scanBack test ((trees ++ [child]).flatMap toList).toArray start
        (min stop ((trees ++ [child]).flatMap toList).toArray.size - start) = (
      let reached := (trees ++ [child]).take (min ((stop - 1) / width) trees.length + 1)
      let items := (reached.flatMap toList).toArray
      scanBack test items start (min stop items.size - start)) := by
  dsimp only
  rcases Nat.lt_or_ge ((stop - 1) / width) trees.length with before | atEnd
  · have before : (stop - 1) / width + 1 ≤ trees.length := before
    have beyond := Nat.lt_mul_div_succ (stop - 1) positive
    obtain ⟨front, total⟩ := length_from_child child wide before
    rw [Nat.mul_comm] at beyond
    have append := @scanBack_append_left α S test
      (((trees ++ [child]).take ((stop - 1) / width + 1)).flatMap toList).toArray
      (((trees ++ [child]).drop ((stop - 1) / width + 1)).flatMap toList).toArray
      start (stop - start) (fun _ => by
        rw [List.size_toArray, front]
        omega)
    rw [List.append_toArray, ← List.flatMap_append, List.take_append_drop] at append
    rw [Nat.min_eq_left (Nat.le_of_succ_le before), List.size_toArray, List.size_toArray, front,
      Nat.min_eq_left (by omega : stop ≤ _), Nat.min_eq_left (by omega : stop ≤ _), append]
  · rw [Nat.min_eq_right atEnd, List.take_of_length_le (by simp)]

omit test items in
theorem checkedFindLast_branch (order : start < stop) (inWord : stop < 2 ^ 64)
    (test : α → StateM S Bool) {count : Nat} {children : Array (Tree α level)}
    (size : children.size = count + 1) :
    @checkedFindLast α S options test (level + 1) start stop children =
      checkedSearchDown options
        (fun start stop child => checkedFindLast options test start stop child) start stop children
        (min ((stop - 1) / span options.segmentCapacity level) count + 1) := by
  simp only [checkedFindLast]
  rw [if_pos order, Word.sub_eq (by omega)]
  refine (liftM_ok_bind _ _).trans ?_
  rw [split_eq (by omega)]
  refine (liftM_ok_bind _ _).trans ?_
  split
  · omega
  · rename_i count' same
    rw [size] at same
    rw [Nat.succ.inj same]

theorem Packed.checksScanBack (packed : tree.Packed options.segmentCapacity front last)
    (small : tree.toList.length < 2 ^ 64) : ChecksScanBack options test tree := by
  induction level generalizing front last with
  | zero =>
    change Buffer α at tree
    intro start stop _ inWord
    have none (beyond : min stop tree.items.size ≤ start) :
        lift (scanBack test (@toArray α 0 tree) start (min stop (@toArray α 0 tree).size - start)) =
          pure none := by
      have count : min stop (@toArray α 0 tree).size - start = 0 := Nat.sub_eq_zero_of_le beyond
      rw [count]
      rfl
    simp only [checkedFindLast]
    split
    · split
      · rename_i order
        exact checkedScanBack_eq order (Nat.min_le_right ..)
          (Nat.lt_of_le_of_lt (Nat.min_le_left ..) inWord)
      · rename_i beyond
        exact (none (Nat.le_of_not_le beyond)).symm
    · rename_i beyond
      exact (none (Nat.le_trans (Nat.min_le_left ..) (Nat.not_lt.mp beyond))).symm
  | succ level ih =>
    intro start stop inWord inWord'
    obtain ⟨before, child, rfl, -⟩ := packed.shaped
    have each := packed.each_child small
    obtain ⟨inner, innerPacked, -, -, complete⟩ := packed.exists_inner
    have positive := span_pos packed.capacity_pos level
    have width : ∀ tree ∈ before.toList, tree.toList.length = span options.segmentCapacity level :=
      fun tree member => (complete tree member).length_toList
    have row : before.push child = (before.toList ++ [child]).toArray :=
      Array.ext' Array.toList_push
    by_cases order : start < stop
    · rw [checkedFindLast_branch order inWord' test (Array.size_push ..), toArray_branch]
      rw [toList_branch] at small
      rw [Array.toList_push] at each small ⊢
      rw [row, checkedSearchDown_eq width ?_ small inWord inWord' ?_ ?_,
        scanBack_to_child positive width order]
      · simp
      · intro tree member
        obtain ⟨⟨_, _, packed⟩, small⟩ := each tree member
        exact ih packed small
      · simp
      · rintro position same
        obtain rfl := Nat.succ.inj same
        refine Nat.lt_of_le_of_lt (Nat.mul_le_mul_right _ (Nat.min_le_left ..)) ?_
        have := Nat.div_mul_le_self (stop - 1) (span options.segmentCapacity level)
        omega
    · have count : min stop (@toArray α (level + 1) (before.push child)).size - start = 0 := by
        omega
      rw [count]
      simp only [checkedFindLast]
      exact if_neg order

end Tree

end Segmented
