import Segmented.Proofs.Depth

/-! A change of the length in bulk against the same change one element at a time. Both leave the
same segments; a truncation even uses the depot in the same way. -/

namespace Segmented

variable {σ α : Type}

namespace Tree

variable [Allocator σ α] {level : Nat} {options : Options} {tree : Tree α level}
  {front : List (Buffer α)} {last : Buffer α}

/-- A last segment that holds another element keeps its storage when it loses one. -/
theorem Shaped.pop_of_spare (shaped : tree.Shaped) (parts : tree.row = front ++ [last])
    (spare : 1 < last.size) :
    (tree.pop options : Depot.Step σ _) =
      pure (last.items.back?, tree.setLast last.popKeeping.2) := by
  obtain ⟨items, capacity⟩ := last
  have some : 0 < items.size := Nat.lt_of_succ_lt spare
  obtain ⟨kept, x, rfl⟩ := Array.eq_push_of_size_ne_zero (Nat.ne_of_gt some)
  have another : 0 < kept.size := by simpa [Buffer.size] using spare
  have settled : (Buffer.settle options { items := kept, capacity } : Depot.Step σ _) =
      pure { items := kept, capacity } := Buffer.settle_of_nonempty another
  have nonempty : ({ items := kept, capacity } : Buffer α).isEmpty = false :=
    Buffer.isEmpty_eq_false_iff.mpr another
  have trimmed := (shaped.trimLast_of_nonempty nonempty).1
  simp only [shaped.pop_eq parts, Buffer.pop, Buffer.popKeeping, Array.back?_push, Array.pop_push,
    settled, trimmed, pure_bind]

theorem popMany_succ (count : Nat) (tree : Tree α level) :
    (tree.popMany options (count + 1) : Depot.Step σ _) =
      tree.pop options >>= fun answer => answer.2.popMany options count := rfl

/-- A single segment loses its last elements without the depot, as long as one is left. -/
theorem popMany_segment {segment : Buffer α} {count : Nat} (more : count < segment.size) :
    (@popMany σ α _ 0 options count segment : Depot.Step σ (Buffer α)) =
      pure { segment with items := segment.items.shrink (segment.size - count) } := by
  induction count generalizing segment with
  | zero =>
    have same : segment.items.shrink segment.size = segment.items := by
      simp [Buffer.size]
    rw [Nat.sub_zero, same]
    rfl
  | succ count ih =>
    have shaped : @Shaped α 0 segment := trivial
    have parts : @row α 0 segment = [] ++ [segment] := row_segment segment
    have size : segment.popKeeping.2.size = segment.size - 1 := Array.size_pop
    have popped : (@Tree.pop σ α _ options 0 segment : Depot.Step σ _) =
        pure (segment.items.back?, segment.popKeeping.2) :=
      shaped.pop_of_spare parts (by omega)
    have shrunk : segment.items.pop.shrink (segment.size - 1 - count) =
        segment.items.shrink (segment.size - (count + 1)) := by
      apply Array.ext'
      rw [Array.toList_shrink, Array.toList_shrink, Array.toList_pop, List.dropLast_eq_take,
        List.take_take]
      congr 1
      rw [Array.length_toList, Buffer.size]
      omega
    have fewer : count < segment.popKeeping.2.size := by omega
    have rest := ih fewer
    rw [size, Buffer.popKeeping, shrunk] at rest
    refine (popMany_succ count _).trans (Eq.trans ?_ rest)
    exact congrArg (· >>= fun answer => answer.2.popMany options count) popped

end Tree

namespace Root

variable [Allocator σ α] {options : Options} {length : Nat} {x : α}

/-- Rounds of growth, until nothing is missing: the number of elements still missing, the tree and
the depot, and what comes of them. -/
inductive Fills (options : Options) (length : Nat) (x : α) :
    Nat → Root α → Depot σ → Root α × Depot σ → Prop
  | done {root : Root α} {depot : Depot σ} : Fills options length x 0 root depot (root, depot)
  | round {count missing : Nat} {root root' : Root α} {depot depot' : Depot σ}
      {outcome : Root α × Depot σ} (more : count ≠ 0)
      (filled : (fillRound options length x count root).run depot = ((root', missing), depot'))
      (rest : Fills options length x missing root' depot' outcome) :
      Fills options length x count root depot outcome

/-- Each round leaves a packed tree and fewer elements missing, so that the rounds end. -/
theorem fills_fill [LawfulAllocator σ α] {level count : Nat} {tree : Tree α level}
    {front : List (Buffer α)} {last : Buffer α}
    (opened : tree.Open options.segmentCapacity front last) {depot : Depot σ}
    (sound : LawfulAllocator.Sound depot.allocator) :
    Fills options length x count { level, tree } depot
      ((fill options length x count { level, tree }).run depot) := by
  induction count using Nat.strongRecOn generalizing level tree front last depot with
  | ind count ih =>
    by_cases more : count = 0
    · subst more
      rw [fill, if_pos rfl]
      exact .done
    · have ensured := ensures_fillRound (σ := σ) opened more length x depot sound
      cases filled : (fillRound options length x count { level, tree }).run depot with
      | mk answer depot' =>
        obtain ⟨root, missing⟩ := answer
        rw [filled] at ensured
        obtain ⟨extended, fewer, appended⟩ := ensured
        obtain ⟨front', last', packed⟩ := appended.packed
        have run : (fill options length x count { level, tree }).run depot =
            (fill options length x missing root).run depot' := by
          rw [fill_eq more, StateT.run_bind, filled]
          exact congrArg (StateT.run · depot') (if_pos fewer)
        rw [run]
        exact .round more filled (ih missing fewer packed.opened extended.sound)

end Root

namespace Sequence

variable [Allocator σ α] {s : Sequence α} {length : Nat} {x : α}

/-- Single appends or removals at the end, as long as the length is another one: the sequence and
the depot, and what comes of them. -/
inductive OneByOne (length : Nat) (x : α) : Sequence α → Depot σ → Sequence α × Depot σ → Prop
  | done {s : Sequence α} {depot : Depot σ} (same : s.length = length) :
      OneByOne length x s depot (s, depot)
  | push {s s' : Sequence α} {depot depot' : Depot σ} {outcome : Sequence α × Depot σ}
      (shorter : s.length < length) (pushed : (s.push x).run depot = (s', depot'))
      (rest : OneByOne length x s' depot' outcome) : OneByOne length x s depot outcome
  | pop {s s' : Sequence α} {depot depot' : Depot σ} {removed : Option α}
      {outcome : Sequence α × Depot σ} (longer : length < s.length)
      (popped : s.pop.run depot = ((removed, s'), depot'))
      (rest : OneByOne length x s' depot' outcome) : OneByOne length x s depot outcome

/-- The second sequence holds the elements of the first, in segments of the same contents, on as
many levels and with the same tail. -/
structure LaidAlike (s t : Sequence α) : Prop where
  elements : t.toList = s.toList
  segments : t.segments.toList.map Buffer.toList = s.segments.toList.map Buffer.toList
  depth : t.depth = s.depth
  tail : t.tail = s.tail
  tailSegment : t.tailSegment?.map Buffer.toList = s.tailSegment?.map Buffer.toList

theorem Valid.laidAlike {t : Sequence α} (valid : s.Valid) (valid' : t.Valid)
    (options : t.options = s.options) (elements : t.toList = s.toList) (depth : t.depth = s.depth) :
    s.LaidAlike t := by
  have length : t.length = s.length := by rw [valid'.length_eq, elements, valid.length_eq]
  have segments : t.segments.toList.map Buffer.toList = s.segments.toList.map Buffer.toList := by
    rw [valid'.segments_eq_split, valid.segments_eq_split, options, elements]
  have count : t.segmentCount = s.segmentCount :=
    valid.segmentCount_congr valid' length (congrArg Options.segmentCapacity options)
  refine ⟨elements, segments, depth, ?_, ?_⟩
  · rw [(wellFormed_of_valid valid').tail, (wellFormed_of_valid valid).tail, length, count]
  · rw [(wellFormed_of_valid valid').tailSegment, (wellFormed_of_valid valid).tailSegment,
      ← List.getLast?_map, ← List.getLast?_map, segments]

/-- A sequence that grows to one length in two ways gains the same levels. -/
theorem Grown.depth_le {s' s'' : Sequence α} (grown : s.Grown s') (grown' : s.Grown s'')
    (valid : s'.Valid) (valid' : s''.Valid) (order : s.depth ≤ s''.depth)
    (length : s''.length = s'.length) : s'.depth ≤ s''.depth := by
  rcases grown.depth with same | needy
  · exact same ▸ order
  · have fits := valid'.length_le_room
    rw [length, grown'.options, ← grown.options] at fits
    exact (valid.suits_of_needy needy).2 fits

theorem refreshTail_of_shaped {level : Nat} {tree : Tree α level}
    (root : s.root = some { level, tree }) (shaped : tree.Shaped)
    (tail : s.tail = some (tree.row.length - 1)) : s.refreshTail = s := by
  obtain ⟨_, _, _⟩ := s
  obtain rfl := root
  obtain rfl := tail
  simp only [refreshTail, Option.bind_some, shaped.lastNumber?_eq]

theorem Valid.refreshTail_eq (valid : s.Valid) : s.refreshTail = s := by
  cases valid with
  | empty root length tail =>
    obtain ⟨_, _, _⟩ := s
    obtain rfl := root
    obtain rfl := tail
    rfl
  | tree root packed length tail =>
    apply refreshTail_of_shaped root packed.shaped
    rw [packed.parts, List.length_append]
    exact tail

theorem settle_of_pos (some : s.length ≠ 0) :
    (s.settle : Depot.Step σ (Sequence α)) = pure s.refreshTail := by
  unfold settle
  rw [if_neg some]

/-- At the tail as through the root, the last element goes from the tree. -/
theorem Valid.pop_eq {level : Nat} {tree : Tree α level} (valid : s.Valid)
    (root : s.root = some { level, tree }) (more : 1 < s.length) :
    (s.pop : Depot.Step σ _) = do
      let (removed, tree) ← tree.pop s.options
      return (removed,
        { s with root := some { level, tree }, length := s.length - 1 }.bump.refreshTail) := by
  have some : s.length ≠ 0 := Nat.ne_of_gt (Nat.lt_of_succ_lt more)
  cases valid with
  | empty none => cases root.symm.trans none
  | tree here packed total tail =>
    cases root.symm.trans here
    rename_i front last
    have tailSegment : s.tailSegment? = Option.some last := Valid.tailSegment?_eq root packed tail
    unfold pop
    rw [if_neg some]
    by_cases spare : 1 < last.size
    · obtain ⟨shaped, parts⟩ := packed.shaped.setLast packed.parts last.popKeeping.2
      have removed : s.last? = last.items.back? := by rw [last?, tailSegment]
      have same := refreshTail_of_shaped (s := { s with
        root := Option.some { level, tree := tree.setLast last.popKeeping.2 }
        length := s.length - 1 }.bump) rfl shaped (by
          rw [parts, List.length_append]
          exact tail)
      rw [tailSegment, Option.any_some, if_pos (decide_eq_true spare),
        packed.shaped.pop_of_spare packed.parts spare, updateTail_eq root packed tail]
      simp only [pure_bind, removed, same]
    · rw [tailSegment, Option.any_some, if_neg (by simpa using spare)]
      obtain ⟨items, capacity⟩ := last
      obtain ⟨kept, x, rfl⟩ := Array.eq_push_of_size_ne_zero (Nat.ne_of_gt packed.filled.positive)
      have left : s.length - 1 ≠ 0 := Nat.sub_ne_zero_of_lt more
      unfold popDeep detach
      simp only [root, packed.shaped.pop_eq packed.parts, Buffer.pop, Array.back?_push, bind_assoc,
        pure_bind]
      refine bind_congr fun segment => ?_
      rw [settle_of_pos (by exact left)]
      rfl

/-- A truncation to some elements removes the others from the tree one by one, in a single segment
as in several. -/
theorem Valid.truncate_eq {level : Nat} {tree : Tree α level} (valid : s.Valid)
    (root : s.root = some { level, tree }) (positive : 0 < length) (less : length < s.length) :
    (s.truncate length : Depot.Step σ _) = do
      let tree ← tree.popMany s.options (s.length - length)
      return { s with root := some { level, tree }, length }.bump.refreshTail := by
  have kept : length ≠ 0 := Nat.ne_of_gt positive
  cases valid with
  | empty none => cases root.symm.trans none
  | tree here packed total tail =>
    cases root.symm.trans here
    rename_i front last
    unfold truncate detach
    rw [if_neg (Nat.not_le.mpr less), if_neg kept]
    simp only [root]
    cases level with
    | zero =>
      obtain ⟨rfl, rfl⟩ := Tree.eq_of_row_segment packed.parts
      have size : s.length = last.size := total.trans (Buffer.length_toList last)
      have fewer : s.length - length < last.size := by omega
      have popped := @Tree.popMany_segment σ _ _ s.options _ _ fewer
      have left : last.size - (s.length - length) = length := by omega
      have settled : (last.truncate s.options length : Depot.Step σ _) =
          pure { last with items := last.items.shrink length } := by
        apply Buffer.settle_of_nonempty
        rw [Buffer.size] at size ⊢
        rw [Array.size_shrink]
        omega
      rw [left] at popped
      simp only [settled, popped, pure_bind]
      exact settle_of_pos kept
    | succ level => exact bind_congr fun tree' => settle_of_pos kept

variable [LawfulAllocator σ α]

/-- Removals at the end one by one are those through the root, all but for the version. -/
theorem Valid.oneByOne_popMany {level count : Nat} {tree : Tree α level} (valid : s.Valid)
    (root : s.root = some { level, tree }) (fewer : count < s.length) (x : α) {depot : Depot σ}
    (sound : LawfulAllocator.Sound depot.allocator) :
    let trimmed := (tree.popMany s.options count).run depot
    ∃ version, OneByOne (s.length - count) x s depot
      (({ s with
        root := some { level, tree := trimmed.1 }
        length := s.length - count, version }).refreshTail, trimmed.2) := by
  induction count generalizing s tree depot with
  | zero =>
    refine ⟨s.version, ?_⟩
    have same : ({ s with
        root := some { level, tree }, length := s.length - 0, version := s.version } :
          Sequence α).refreshTail = s := by
      rw [← root]
      exact valid.refreshTail_eq
    exact same.symm ▸ .done rfl
  | succ count ih =>
    have step := congrArg (·.run depot) (valid.pop_eq (σ := σ) root (by omega))
    have ensured := (ensures_pop valid depot sound)
    rw [Tree.popMany_succ, StateT.run_bind]
    rw [StateT.run_bind] at step
    cases popped : (tree.pop s.options).run depot with
    | mk answer depot' =>
      obtain ⟨removed, tree'⟩ := answer
      rw [popped] at step
      rw [step] at ensured
      obtain ⟨extended, -, follows⟩ := ensured
      obtain ⟨version, rest⟩ := ih follows.valid rfl (Nat.lt_sub_of_add_lt fewer) extended.sound
      have shorter : s.length - 1 - count = s.length - (count + 1) := by omega
      change OneByOne (s.length - 1 - count) x _ _
        (({ s with root := some { level, tree := _ }, length := s.length - 1 - count, version } :
          Sequence α).refreshTail, _) at rest
      rw [shorter] at rest
      exact ⟨version, .pop (Nat.sub_lt_self (Nat.succ_pos count) (Nat.le_of_lt fewer)) step rest⟩

/-- Appends one by one are those of a list of copies. -/
theorem Valid.oneByOne_extend (valid : s.Valid) (x : α) (count : Nat) {depot : Depot σ}
    (sound : LawfulAllocator.Sound depot.allocator) :
    OneByOne (s.length + count) x s depot ((s.extend (List.replicate count x)).run depot) := by
  induction count generalizing s depot with
  | zero => exact .done rfl
  | succ count ih =>
    obtain ⟨extended, follows⟩ := ensures_push valid x depot sound
    have longer : ((s.push x).run depot).1.length = s.length + 1 := by
      rw [follows.valid.length_eq, follows.elements, List.length_append, ← valid.length_eq]
      rfl
    have rest := ih follows.valid extended.sound
    rw [longer, Nat.add_assoc, Nat.add_comm 1] at rest
    rw [extend, List.replicate_succ, List.foldlM_cons, StateT.run_bind]
    exact .push (Nat.lt_add_of_pos_right (Nat.succ_pos count)) rfl rest

/-- Removals at the end come to an end at any smaller length. -/
theorem Valid.exists_oneByOne (valid : s.Valid) (x : α) (order : length ≤ s.length)
    {depot : Depot σ} (sound : LawfulAllocator.Sound depot.allocator) :
    ∃ outcome, OneByOne length x s depot outcome ∧ s.Follows (s.toList.take length) outcome.1 := by
  obtain ⟨count, total⟩ := Nat.exists_eq_add_of_le order
  induction count generalizing s depot with
  | zero =>
    refine ⟨(s, depot), .done total, ?_⟩
    rw [List.take_of_length_le (Nat.le_of_eq (valid.length_eq ▸ total))]
    exact .refl valid
  | succ count ih =>
    obtain ⟨extended, -, follows⟩ := ensures_pop valid depot sound
    have shorter : (s.pop.run depot).1.2.length = length + count := by
      rw [follows.valid.length_eq, follows.elements, List.length_dropLast, ← valid.length_eq, total]
      rfl
    obtain ⟨outcome, rest, follows'⟩ :=
      ih follows.valid (by omega) extended.sound shorter
    refine ⟨outcome, .pop (by omega) rfl rest, ?_⟩
    have same : (s.toList.dropLast).take length = s.toList.take length := by
      rw [List.dropLast_eq_take, List.take_take, ← valid.length_eq, Nat.min_eq_left (by omega)]
    rw [follows.elements, same] at follows'
    exact follows.trans follows'

/-! ### Growth in bulk -/

/-- The tree that growth by `missing` elements starts from: that of the sequence, or an empty
segment. -/
def seed (missing : Nat) (s : Sequence α) : Depot.Step σ (Root α) :=
  match s.root with
  | none => Root.start s.options missing
  | some root => pure root

theorem Valid.fills_ensure (valid : s.Valid) (shorter : s.length < length) (x : α) {depot : Depot σ}
    (sound : LawfulAllocator.Sound depot.allocator) :
    ∃ root depot' filled, (s.seed (length - s.length)).run depot = (root, depot') ∧
      Root.Fills s.options s.length x (length - s.length) root depot' filled ∧
      (s.ensure length x).run depot =
        ({ s with root := some filled.1, length }.bump.refreshTail, filled.2) := by
  unfold ensure detach seed
  rw [if_neg (Nat.not_le.mpr shorter)]
  cases valid with
  | empty root zero tail =>
    obtain ⟨extended, started⟩ :=
      Buffer.ensures_start s.options (length - s.length) depot sound
    simp only [root, Root.start, bind_assoc, pure_bind]
    rw [StateT.run_bind, StateT.run_bind]
    generalize (Buffer.start s.options (length - s.length)).run depot = opened at extended started ⊢
    obtain ⟨segment, depot'⟩ := opened
    exact ⟨_, depot', _, rfl, Root.fills_fill (Tree.open_segment started.1) extended.sound, rfl⟩
  | tree root packed total tail =>
    simp only [root, pure_bind]
    exact ⟨_, depot, _, rfl, Root.fills_fill packed.opened sound, rfl⟩

theorem Valid.laidAlike_ensure (valid : s.Valid) (length : Nat) (x : α) {depot : Depot σ}
    (sound : LawfulAllocator.Sound depot.allocator) :
    ((s.extend (List.replicate (length - s.length) x)).run depot).1.LaidAlike
      ((s.ensure length x).run depot).1 := by
  have extended := (ensures_extend valid (List.replicate (length - s.length) x) depot sound).2
  have ensured := (ensures_ensure valid length x depot sound).2.1
  have options := ensured.options.trans extended.options.symm
  have elements := ensured.elements.trans extended.elements.symm
  have lengths := ensured.valid.length_eq.trans (elements ▸ extended.valid.length_eq.symm)
  have grown := valid.grown_extend (List.replicate (length - s.length) x) sound
  have grown' := valid.grown_ensure length x sound
  have order := (climbs_extend (List.replicate (length - s.length) x) s depot).1
  have order' := (climbs_ensure length x s depot).1
  refine extended.valid.laidAlike ensured.valid options elements ?_
  apply Nat.le_antisymm
  · exact grown'.depth_le grown ensured.valid extended.valid order lengths.symm
  · exact grown.depth_le grown' extended.valid ensured.valid order' lengths

/-! ### Any length -/

/-- A truncation to some elements uses the depot as removals one by one do, and leaves the same
sequence but for the version. -/
theorem Valid.exists_oneByOne_truncate (valid : s.Valid) (positive : 0 < length)
    (less : length < s.length) (x : α) {depot : Depot σ}
    (sound : LawfulAllocator.Sound depot.allocator) :
    ∃ outcome version, OneByOne length x s depot outcome ∧
      (s.truncate length).run depot = ({ outcome.1 with version }, outcome.2) := by
  have fewer : s.length - length < s.length := Nat.sub_lt_self positive (Nat.le_of_lt less)
  have left : s.length - (s.length - length) = length := Nat.sub_sub_self (Nat.le_of_lt less)
  cases root : s.root with
  | none => exact absurd (valid.length_eq_zero_iff.mpr root) (by omega)
  | some root' =>
    obtain ⟨level, tree⟩ := root'
    obtain ⟨version, removals⟩ := valid.oneByOne_popMany root fewer x sound
    rw [left] at removals
    refine ⟨_, s.version + 1, removals, ?_⟩
    rw [valid.truncate_eq root positive less]
    rfl

/-- A sequence that has been emptied has no shape of its own. -/
theorem Valid.laidAlike_of_nil {t : Sequence α} (valid : s.Valid) (valid' : t.Valid)
    (options : t.options = s.options) (nothing : s.toList = []) (nothing' : t.toList = []) :
    s.LaidAlike t := by
  have empty : s.length = 0 := by rw [valid.length_eq, nothing, List.length_nil]
  have empty' : t.length = 0 := by rw [valid'.length_eq, nothing', List.length_nil]
  refine valid.laidAlike valid' options (nothing'.trans nothing.symm) ?_
  rw [valid'.depth_eq_zero_iff.mpr empty', valid.depth_eq_zero_iff.mpr empty]

theorem Valid.exists_oneByOne_resize (valid : s.Valid) (length : Nat) (x : α) {depot : Depot σ}
    (sound : LawfulAllocator.Sound depot.allocator) :
    ∃ outcome, OneByOne length x s depot outcome ∧
      outcome.1.LaidAlike ((s.resize length x).run depot).1 ∧
      (0 < length → length < s.length →
        ∃ version, (s.resize length x).run depot = ({ outcome.1 with version }, outcome.2)) := by
  unfold resize
  rcases Nat.lt_trichotomy s.length length with longer | same | shorter
  · rw [if_pos longer]
    have appends := valid.oneByOne_extend x (length - s.length) sound
    rw [Nat.add_sub_cancel' (Nat.le_of_lt longer)] at appends
    exact ⟨_, appends, valid.laidAlike_ensure length x sound, fun _ shorter => by omega⟩
  · rw [if_neg (Nat.not_lt.mpr (Nat.le_of_eq same.symm)), truncate, if_pos (Nat.le_of_eq same)]
    exact ⟨(s, depot), .done same, ⟨rfl, rfl, rfl, rfl, rfl⟩, fun _ shorter => by omega⟩
  · rw [if_neg (Nat.not_lt.mpr (Nat.le_of_lt shorter))]
    by_cases zero : length = 0
    · subst zero
      obtain ⟨outcome, removals, follows⟩ := valid.exists_oneByOne x (Nat.zero_le _) sound
      have follows' := (ensures_truncate valid 0 depot sound).2
      rw [List.take_zero] at follows follows'
      refine ⟨outcome, removals, ?_, fun positive => absurd positive (Nat.lt_irrefl 0)⟩
      exact follows.valid.laidAlike_of_nil follows'.valid
        (follows'.options.trans follows.options.symm) follows.elements follows'.elements
    · obtain ⟨outcome, version, removals, run⟩ :=
        valid.exists_oneByOne_truncate (Nat.pos_of_ne_zero zero) shorter x sound
      refine ⟨outcome, removals, ?_, fun _ _ => ⟨version, run⟩⟩
      rw [run]
      exact ⟨rfl, rfl, rfl, rfl, rfl⟩

variable [BEq α] [Inhabited α]

/-- A change of the length to `length` with copies of `x` leaves the same elements in segments of
the same contents, on as many levels and with the same tail, as single appends while the sequence is
too short, or single removals at its end while it is too long. A truncation that leaves elements
uses the depot as the removals do, call by call, and the rounds of growth come to an end. -/
theorem Reachable.resize_one_by_one (reachable : s.Reachable) (length : Nat) (x : α)
    (depot : Depot σ) (sound : LawfulAllocator.Sound depot.allocator) :
    (∃ outcome, OneByOne length x s depot outcome ∧
      outcome.1.LaidAlike ((s.resize length x).run depot).1 ∧
      (0 < length → length < s.length →
        ∃ version, (s.resize length x).run depot = ({ outcome.1 with version }, outcome.2))) ∧
    (s.length < length → ∃ root depot' filled,
      (s.seed (length - s.length)).run depot = (root, depot') ∧
      Root.Fills s.options s.length x (length - s.length) root depot' filled ∧
      (s.resize length x).run depot =
        ({ s with root := some filled.1, length }.bump.refreshTail, filled.2)) := by
  refine ⟨reachable.valid.exists_oneByOne_resize length x sound, fun longer => ?_⟩
  rw [resize, if_pos longer]
  exact reachable.valid.fills_ensure longer x sound

/-- Forty elements in three segments are cut to five: two buffers go back, from the end. -/
theorem resize_one_by_one_to_five :
    let s : Sequence Nat := onHeap [.extend (List.range 40)]
    let depot : Depot (Heap Nat) := { allocator := ⟨⟩ }
    ∃ outcome, OneByOne 5 0 s depot outcome ∧ outcome.1.toList = List.range 5 ∧
      outcome.2.calls = #[.release 16 0 true, .release 16 0 true] := by
  intro s depot
  obtain ⟨⟨outcome, removals, alike, same⟩, -⟩ :=
    (reachable_onHeap _).resize_one_by_one (s := s) 5 0 depot trivial
  obtain ⟨version, run⟩ := same (by decide) (by decide +kernel)
  have elements : ((s.resize 5 0).run depot).1.toList = List.range 5 := by decide +kernel
  have calls : ((s.resize 5 0).run depot).2.calls =
      #[.release 16 0 true, .release 16 0 true] := by decide +kernel
  rw [run] at calls
  exact ⟨outcome, removals, alike.elements.symm.trans elements, calls⟩

end Sequence

end Segmented
