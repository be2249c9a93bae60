import Mathlib.Data.Multiset.OrderedMonoid
import Segmented.Proofs.Refill
import Segmented.Proofs.WellFormed

/-! The calls that one insertion or one removal makes on the allocator. However many segments it
moves elements through, only the last one grows, or is opened, or goes. -/

namespace Segmented

variable {σ α : Type}

/-! ### Steps with their calls -/

namespace Depot

variable [Allocator σ α] [LawfulAllocator σ α]

/-- Run on a sound depot, the step adds calls to the record of which, with its answer, `post`
holds. -/
def Records {ρ : Type} (step : Step σ ρ) (post : List Call → ρ → Prop) : Prop :=
  ∀ depot : Depot σ, LawfulAllocator.Sound depot.allocator →
    LawfulAllocator.Sound (step.run depot).2.allocator ∧ ∃ calls : List Call,
      (step.run depot).2.calls = depot.calls ++ calls.toArray ∧ post calls (step.run depot).1

namespace Records

variable {ρ τ : Type} {step : Step σ ρ} {post : List Call → ρ → Prop}

theorem pure {x : ρ} (holds : post [] x) : Records (pure x : Step σ ρ) post :=
  fun _ sound => ⟨sound, [], Array.append_empty.symm, holds⟩

theorem bind {next : ρ → Step σ τ} {post' : List Call → τ → Prop} (first : Records step post)
    (second : ∀ calls x, post calls x → Records (next x) fun later => post' (calls ++ later)) :
    Records (step >>= next) post' := by
  intro depot sound
  obtain ⟨sound', calls, record, holds⟩ := first depot sound
  obtain ⟨sound'', later, record', holds'⟩ := second calls _ holds _ sound'
  refine ⟨sound'', calls ++ later, record'.trans ?_, holds'⟩
  simp [record, Array.append_assoc]

/-- A step that ends with an answer read off another answer. -/
theorem map {answer : ρ → τ} {post' : List Call → τ → Prop} (first : Records step post)
    (implies : ∀ calls x, post calls x → post' calls (answer x)) :
    Records (do let x ← step; return answer x) post' :=
  first.bind fun calls x holds => .pure (by rw [List.append_nil]; exact implies calls x holds)

theorem weaken {post' : List Call → ρ → Prop} (first : Records step post)
    (implies : ∀ calls x, post calls x → post' calls x) : Records step post' := by
  intro depot sound
  obtain ⟨sound', calls, record, holds⟩ := first depot sound
  exact ⟨sound', calls, record, implies calls _ holds⟩

end Records

theorem records_rent (asked : Nat) :
    Records (rent asked : Step σ (Buffer α)) fun calls buffer =>
      calls = [.rent asked buffer.capacity] ∧ buffer.items = #[] ∧ asked ≤ buffer.capacity :=
  fun _ sound => ⟨LawfulAllocator.rent_sound asked sound, _, Array.push_eq_append, rfl,
    LawfulAllocator.rent_empty asked sound, LawfulAllocator.rent_capacity asked sound⟩

theorem records_reclaim {buffer : Buffer α} (stored : 0 < buffer.capacity) (clear : Bool) :
    Records (reclaim buffer clear : Step σ Unit) fun calls _ =>
      calls = [.release buffer.capacity buffer.size clear] := by
  have same : (reclaim buffer clear : Step σ Unit) = release buffer clear := if_pos stored
  rw [same]
  exact fun _ sound =>
    ⟨LawfulAllocator.release_sound buffer clear sound, _, Array.push_eq_append, rfl⟩

theorem records_notify (notice : Notice) :
    Records (notify notice : Step σ Unit) fun calls _ => calls = [] :=
  fun _ sound => ⟨sound, [], Array.append_empty.symm, rfl⟩

end Depot

open Depot (Records)

/-! ### One segment -/

namespace Buffer

/-- How a segment comes to have room for one more element: the calls that it takes, and the capacity
that it has then. -/
inductive Regrows (options : Options) (buffer : Buffer α) : List Call → Nat → Prop
  | spare (spare : buffer.size < buffer.capacity) : Regrows options buffer [] buffer.capacity
  | doubled {got : Nat} (taken : buffer.size = buffer.capacity) (larger : buffer.capacity < got) :
      Regrows options buffer
        [.rent (min (2 * buffer.capacity) options.segmentCapacity) got,
          .release buffer.capacity 0 options.clearsOnReturn] got

variable [Allocator σ α] [LawfulAllocator σ α] {options : Options} {buffer : Buffer α}

theorem records_makeRoom (filled : buffer.Filled options.segmentCapacity)
    (room : buffer.size < options.segmentCapacity) :
    Records (buffer.makeRoom options : Depot.Step σ (Buffer α)) fun calls roomy =>
      buffer.Regrows options calls roomy.capacity := by
  have stored : 0 < buffer.capacity := Nat.lt_of_lt_of_le filled.positive filled.fits
  have fits : buffer.size ≤ buffer.capacity := filled.fits
  unfold makeRoom
  split
  · rename_i spare
    exact .pure (.spare spare)
  · rename_i taken
    rw [Nat.max_eq_left (by omega)]
    apply (Depot.records_rent _).bind
    rintro _ grown ⟨rfl, -, enough⟩
    have cleared : 0 < buffer.cleared.capacity := stored
    apply (Depot.records_reclaim cleared options.clearsOnReturn).map
    rintro _ _ rfl
    exact .doubled (by omega) (by omega)

theorem records_push (filled : buffer.Filled options.segmentCapacity)
    (room : buffer.size < options.segmentCapacity) (x : α) :
    Records (buffer.push options x : Depot.Step σ (Buffer α)) fun calls longer =>
      buffer.Regrows options calls longer.capacity := by
  simp only [push, isFull_eq_false_iff.mpr room, Bool.false_eq_true, if_false]
  exact (records_makeRoom filled room).map fun _ _ => id

theorem records_insert (filled : buffer.Filled options.segmentCapacity)
    (room : buffer.size < options.segmentCapacity) {index : Nat} (inside : index ≤ buffer.size)
    (x : α) :
    Records (buffer.insert options index x : Depot.Step σ (Buffer α)) fun calls longer =>
      buffer.Regrows options calls longer.capacity := by
  simp only [insert, isFull_eq_false_iff.mpr room, Bool.false_eq_true, if_false,
    Nat.not_lt.mpr inside]
  exact (records_makeRoom filled room).map fun _ _ => id

/-- Only storage in which nothing is left goes back. -/
theorem records_settle (stored : 0 < buffer.capacity) :
    Records (buffer.settle options : Depot.Step σ (Buffer α)) fun calls settled =>
      (0 < buffer.size ∧ calls = [] ∧ settled = buffer) ∨
        (buffer.size = 0 ∧ calls = [.release buffer.capacity 0 options.clearsOnReturn] ∧
          settled = {}) := by
  rcases Nat.eq_zero_or_pos buffer.size with empty | some
  · have vacant : buffer.isEmpty = true := by
      rw [← Bool.not_eq_false, isEmpty_eq_false_iff, empty]
      exact Nat.lt_irrefl 0
    unfold settle
    rw [if_pos vacant]
    apply (Depot.records_reclaim stored options.clearsOnReturn).map
    rintro _ _ rfl
    exact .inr ⟨empty, by rw [empty], rfl⟩
  · rw [settle_of_nonempty some]
    exact .pure (.inl ⟨some, rfl, rfl⟩)

end Buffer

/-! ### Trees -/

/-- Inserts `x` before the end of the tree of a sequence of the given length, and appends what
overflows. -/
def Root.insert [Allocator σ α] (options : Options) (length index : Nat) (x : α) :
    Root α → Depot.Step σ (Root α)
  | { level, tree } => do
    let (tree, carry) ← tree.insert options index x
    match carry with
    | none => return { level, tree }
    | some carry => Root.push options length carry { level, tree }

/-- What a segment is rented for that is opened for one element. -/
def Options.opening (options : Options) (asked : Nat) : Nat :=
  if asked = 0 then 2 else min asked options.segmentCapacity

theorem Options.opening_bounds (options : Options) (asked : Nat) :
    1 ≤ options.opening asked ∧ options.opening asked ≤ options.segmentCapacity := by
  have supported := options.supported.1
  unfold opening
  split <;> omega

namespace Tree

/-- How a row of segments comes to hold one more element: the calls that it takes, and the
capacities that the segments have then. -/
inductive Lengthens (options : Options) : List (Buffer α) → List Call → List Nat → Prop
  /-- The first segment is opened. -/
  | first {asked got : Nat} (positive : 1 ≤ asked) (most : asked ≤ options.segmentCapacity)
      (enough : asked ≤ got) : Lengthens options [] [.rent asked got] [got]
  /-- The last segment takes another element in. -/
  | taken {front : List (Buffer α)} {last : Buffer α} {calls : List Call} {capacity : Nat}
      (room : last.size < options.segmentCapacity) (regrows : last.Regrows options calls capacity) :
      Lengthens options (front ++ [last]) calls (front.map Buffer.capacity ++ [capacity])
  /-- A segment is opened behind a full one. -/
  | opened {front : List (Buffer α)} {last : Buffer α} {got : Nat}
      (full : last.size = options.segmentCapacity) (enough : 16 ≤ got) :
      Lengthens options (front ++ [last]) [.rent 16 got]
        ((front ++ [last]).map Buffer.capacity ++ [got])

/-- How a row of segments comes to hold one element less: the calls that it takes, and the
capacities that the segments have then. -/
inductive Shortens (options : Options) : List (Buffer α) → List Call → List Nat → Prop
  /-- The last segment holds another element. -/
  | kept {front : List (Buffer α)} {last : Buffer α} (another : 1 < last.size) :
      Shortens options (front ++ [last]) [] ((front ++ [last]).map Buffer.capacity)
  /-- The last segment has lost its only element, and its buffer goes back with nothing in it. -/
  | dropped {front : List (Buffer α)} {last : Buffer α} (single : last.size = 1) :
      Shortens options (front ++ [last])
        [.release last.capacity 0 options.clearsOnReturn] (front.map Buffer.capacity)

variable {level : Nat} {options : Options} {tree other : Tree α level} {front : List (Buffer α)}
  {last : Buffer α}

/-- What the allocator has lent to a tree: the capacities of its segments, from the first to the
last. -/
def lent (tree : Tree α level) : List Nat := tree.row.map Buffer.capacity

theorem lent_of_parts (parts : tree.row = front ++ [last]) :
    tree.lent = front.map Buffer.capacity ++ [last.capacity] := by
  rw [lent, parts, List.map_append, List.map_singleton]

theorem Matches.lent (matched : other.Matches tree) : other.lent = tree.lent := by
  have read (segments : List (Buffer α)) :
      segments.map Buffer.capacity = (segments.map Buffer.outline).map Prod.snd := by
    rw [List.map_map]
    rfl
  rw [Tree.lent, Tree.lent, read, read, matched.outlines]

/-- Segments in front of the same last one have the same capacities in matching trees. -/
theorem Matches.lent_front {front' : List (Buffer α)} (matched : other.Matches tree)
    (parts : tree.row = front ++ [last]) (parts' : other.row = front' ++ [last]) :
    front'.map Buffer.capacity = front.map Buffer.capacity := by
  have same := matched.lent
  rw [lent_of_parts parts, lent_of_parts parts'] at same
  exact List.append_cancel_right same

theorem Lengthens.setLast {other : Tree α level} {front' : List (Buffer α)} {longer : Buffer α}
    {calls : List Call} (matched : other.Matches tree) (parts : tree.row = front ++ [last])
    (parts' : other.row = front' ++ [last]) (room : last.size < options.segmentCapacity)
    (regrows : last.Regrows options calls longer.capacity) :
    Lengthens options tree.row calls (other.setLast longer).lent := by
  rw [parts, lent_of_parts (matched.shaped.setLast parts' longer).2,
    matched.lent_front parts parts']
  exact .taken room regrows

variable [Allocator σ α] [LawfulAllocator σ α]

theorem records_openWith (options : Options) (asked : Nat) (x : α) :
    Records (openWith options asked x : Depot.Step σ (Buffer α)) fun calls next =>
      calls = [.rent (options.opening asked) next.capacity] ∧
        options.opening asked ≤ next.capacity := by
  have positive := options.segmentCapacity_pos
  have supported := options.supported.1
  unfold openWith Buffer.start Options.opening
  by_cases none : asked = 0
  · subst none
    have two : min (max (2 * 0) 2) options.segmentCapacity = 2 := by omega
    have room : (({} : Buffer α).isFull options) = false :=
      Buffer.isFull_eq_false_iff.mpr positive
    have unstored : ¬ ({} : Buffer α).size < ({} : Buffer α).capacity := Nat.lt_irrefl 0
    have nothing : (Depot.reclaim ({} : Buffer α).cleared options.clearsOnReturn :
        Depot.Step σ Unit) = pure () := if_neg (Nat.lt_irrefl 0)
    simp only [Nat.zero_min, if_true, pure_bind, Buffer.push, room, Bool.false_eq_true, if_false,
      Buffer.makeRoom, unstored, Buffer.regrow, nothing, bind_assoc]
    apply (Depot.records_rent _).map
    rintro _ next ⟨rfl, -, enough⟩
    rw [two] at enough ⊢
    exact ⟨rfl, enough⟩
  · have some : min asked options.segmentCapacity ≠ 0 := by omega
    simp only [if_neg none, if_neg some]
    apply (Depot.records_rent _).bind
    rintro _ next ⟨rfl, vacant, enough⟩
    have empty : next.size = 0 := by rw [Buffer.size, vacant, Array.size_empty]
    rw [Buffer.push_of_spare x (by omega) (by omega)]
    exact .pure ⟨rfl, enough⟩

/-- A segment goes behind the last one without a call, if need be on a new level. -/
theorem records_join (shaped : tree.Shaped) (next : Buffer α) (length : Nat) :
    Records (Root.join length (tree.grow next).1 (tree.grow next).2 : Depot.Step σ (Root α))
      fun calls root => calls = [] ∧ root.tree.row = tree.row ++ [next] := by
  have grown := shaped.grow next
  split at grown
  · obtain ⟨none, -, row'⟩ := grown
    rw [none]
    exact .pure ⟨rfl, row'⟩
  · obtain ⟨same, sibling, opened, -, row'⟩ := grown
    rw [same, opened]
    apply (Depot.records_notify _).map
    rintro _ _ rfl
    refine ⟨rfl, ?_⟩
    simp [row_branch, row']

/-- An element behind a full segment opens another. -/
theorem records_push_of_full (packed : tree.Packed options.segmentCapacity front last)
    (full : last.Full options.segmentCapacity) (matched : other.Matches tree) (length : Nat)
    (x : α) :
    Records (Root.push options length x { level, tree := other } : Depot.Step σ (Root α))
      fun calls root => Lengthens options tree.row calls root.tree.lent := by
  have sixteen : options.opening overflowCapacity = 16 :=
    (if_neg (by decide)).trans (Nat.min_eq_left options.supported.1)
  obtain ⟨front', last', parts'⟩ := matched.shaped.exists_last
  have whole := packed.opened.full_row full
  have full' : last'.Full options.segmentCapacity :=
    Buffer.full_of_outlines whole matched.outlines last' (by simp [parts'])
  have taken : last'.isFull options = true := Buffer.isFull_iff.mpr (Nat.le_of_eq full'.size.symm)
  simp only [Root.push, matched.shaped.push_of_full parts' taken, bind_assoc, pure_bind]
  apply (records_openWith options overflowCapacity x).bind
  rw [sixteen]
  rintro _ next ⟨rfl, enough⟩
  apply (records_join matched.shaped next length).weaken
  rintro _ root ⟨rfl, row'⟩
  have lent' : root.tree.lent = tree.row.map Buffer.capacity ++ [next.capacity] := by
    rw [lent, row', List.map_append, List.map_singleton]
    exact congrArg (· ++ _) matched.lent
  rw [lent', packed.parts]
  exact .opened full.size enough

omit [LawfulAllocator σ α] in
theorem insertDeep_eq (s : Sequence α) (index : Nat) (x : α) (root : Root α) :
    (s.insertDeep index x root : Depot.Step σ (Sequence α)) = do
      let root ← root.insert s.options s.length index x
      return { s with root := some root, length := s.length + 1 }.bump.refreshTail := by
  simp only [Sequence.insertDeep, Root.insert, bind_assoc]
  apply bind_congr
  rintro ⟨tree, carry⟩
  cases carry <;> rfl

/-- An insertion before the end is one into the last segment, or opens another behind it. -/
theorem records_insert (packed : tree.Packed options.segmentCapacity front last) {index : Nat}
    (inside : index < tree.toList.length) (x : α) (length : Nat) :
    Records (Root.insert options length index x { level, tree } : Depot.Step σ (Root α))
      fun calls root => Lengthens options tree.row calls root.tree.lent := by
  have reaches := packed.insert (σ := σ) inside x
  cases room : last.isFull options with
  | true =>
    have full := Buffer.full_of_isFull room packed.filled.bounded packed.filled.fits
    obtain ⟨tree', carry, run, matched, -⟩ := reaches.of_full full
    rw [Root.insert, run]
    exact records_push_of_full packed full matched length carry
  | false =>
    obtain ⟨other, front', index', x', run, matched, parts, within, -⟩ := reaches
    have space := Buffer.isFull_eq_false_iff.mp room
    rw [Root.insert, run]
    simp only [intoSegment_of_room room, bind_assoc, pure_bind]
    apply (Buffer.records_insert packed.filled space (Nat.le_of_lt within) x').map
    intro calls longer regrows
    exact .setLast matched packed.parts parts space regrows

/-- What a settled last segment leaves of a tree, and of what is lent to it. -/
theorem records_trim {index : Nat} (matched : other.Matches tree)
    (parts : tree.row = front ++ [last]) {front' : List (Buffer α)}
    (parts' : other.row = front' ++ [last]) (inside : index < last.size) (fits : last.Fits) :
    Records ((last.without index).settle options : Depot.Step σ (Buffer α)) fun calls settled =>
      (1 < last.size ∧ calls = [] ∧
        (other.trimLast settled).lent = (front ++ [last]).map Buffer.capacity) ∨
      (last.size = 1 ∧ calls = [.release last.capacity 0 options.clearsOnReturn] ∧
        (front = [] → (other.trimLast settled).storage = 0) ∧
        (front ≠ [] → (other.trimLast settled).lent = front.map Buffer.capacity)) := by
  have shorter := Buffer.size_without inside
  have stored : 0 < (last.without index).capacity :=
    Nat.lt_of_lt_of_le (Nat.zero_lt_of_lt inside) fits
  have same := matched.lent_front parts parts'
  apply (Buffer.records_settle stored).weaken
  rintro calls settled (⟨another, rfl, rfl⟩ | ⟨empty, rfl, rfl⟩)
  · refine .inl ⟨by omega, rfl, ?_⟩
    rw [(matched.shaped.trimLast_of_nonempty (Buffer.isEmpty_eq_false_iff.mpr another)).1,
      lent_of_parts (matched.shaped.setLast parts' _).2, same, List.map_append]
    rfl
  · refine .inr ⟨by omega, rfl, fun none => ?_, fun some => ?_⟩
    · subst none
      obtain rfl : front' = [] := List.map_eq_nil_iff.mp same
      exact storage_trimLast_of_single matched.shaped parts'
    · have some' : front' ≠ [] := by
        rintro rfl
        exact some (List.map_eq_nil_iff.mp same.symm)
      rw [lent, ((matched.shaped.trimLast_of_empty parts' rfl).2 some').2, same]

end Tree

/-! ### Sequences -/

namespace Sequence

open Segmented.Tree (Lengthens Shortens)

variable {s : Sequence α}

/-- What the allocator has lent to a sequence: the capacities of its segments, from the first to the
last. -/
def lent (s : Sequence α) : List Nat := s.segments.toList.map Buffer.capacity

theorem lent_of_root {root : Root α} (here : s.root = some root) : s.lent = root.tree.lent := by
  rw [lent, segments, here]
  rfl

variable [Allocator σ α] [LawfulAllocator σ α]

/-- An append opens the first segment, has the tail take the element in, or opens another segment
behind a full one. -/
theorem records_push (valid : s.Valid) (x : α) :
    Records (s.push x : Depot.Step σ (Sequence α)) fun calls s' =>
      Lengthens s.options s.segments.toList calls s'.lent := by
  unfold push pushDeep detach
  cases valid with
  | empty root zero tail =>
    have none : s.segments.toList = [] := by simp [segments, root]
    simp only [tailSegment?, tail, Option.any_none, Bool.false_eq_true, if_false, root,
      singleton_eq, bind_assoc, pure_bind, none]
    apply (Tree.records_openWith s.options s.firstCapacity x).map
    rintro _ next ⟨rfl, enough⟩
    obtain ⟨positive, most⟩ := s.options.opening_bounds s.firstCapacity
    exact .first positive most enough
  | tree root packed total tail =>
    rename_i level tree front last
    rw [segments_eq_row root]
    simp only [Valid.tailSegment?_eq root packed tail, Option.any_some, Bool.not_eq_true']
    split
    · rename_i room
      have space := Buffer.isFull_eq_false_iff.mp room
      simp only [updateTail_eq root packed tail, bind_assoc, pure_bind]
      apply (Buffer.records_push packed.filled space x).map
      intro calls longer regrows
      exact .setLast (.refl packed.shaped) packed.parts packed.parts space regrows
    · rename_i full
      have full := Buffer.full_of_isFull (by simpa using full) packed.filled.bounded
        packed.filled.fits
      simp only [root]
      apply (Tree.records_push_of_full packed full (.refl packed.shaped) s.length x).map
      intro calls root' lengthens
      rwa [lent_of_root rfl]

theorem records_insert (valid : s.Valid) {index : Nat} (inside : index ≤ s.length) (x : α) :
    Records (s.insert index x : Depot.Step σ (Sequence α)) fun calls s' =>
      Lengthens s.options s.segments.toList calls s'.lent := by
  unfold insert
  split
  · exact records_push valid x
  · rename_i before
    cases valid with
    | empty root zero => exact absurd (Nat.le_zero.mp (zero ▸ inside)) (zero ▸ before)
    | tree root packed total tail =>
      rename_i level tree front last
      have within : index < tree.toList.length := by omega
      have deep : Records ({ s with root := none }.insertDeep index x { level, tree } :
          Depot.Step σ (Sequence α)) fun calls s' =>
            Lengthens s.options tree.row calls s'.lent := by
        rw [Tree.insertDeep_eq]
        apply (Tree.records_insert packed within x s.length).map
        intro calls root' lengthens
        rwa [lent_of_root rfl]
      rw [segments_eq_row root]
      simp only [detach, root]
      cases level with
      | succ level => exact deep
      | zero =>
        obtain ⟨rfl, rfl⟩ := Tree.eq_of_row_segment packed.parts
        cases room : last.isFull s.options with
        | true => simpa only [room, if_true] using deep
        | false =>
          have size : (@Tree.toList α 0 last).length = last.size := Buffer.length_toList last
          have space := Buffer.isFull_eq_false_iff.mp room
          simp only [room, Bool.false_eq_true, if_false]
          apply (Buffer.records_insert packed.filled space (by omega) x).map
          intro calls longer regrows
          exact .setLast (.refl packed.shaped) packed.parts packed.parts space regrows

omit [LawfulAllocator σ α] in
/-- Nothing goes back from segments to which nothing is lent. -/
theorem forM_reclaim_of_spent {row : List (Buffer α)} (spent : rowStorage row = 0) (clear : Bool) :
    (row.forM fun buffer => Depot.reclaim buffer clear : Depot.Step σ Unit) = pure () := by
  induction row with
  | nil => rfl
  | cons buffer rest ih =>
    rw [← List.singleton_append, rowStorage_append, rowStorage_singleton, add_eq_zero] at spent
    have unlent : ¬ 0 < buffer.capacity := fun stored => by
      simp [Buffer.storage_of_pos stored] at spent
    change (Depot.reclaim buffer clear >>= fun _ => rest.forM _) = _
    rw [ih spent.2, Depot.reclaim, if_neg unlent, pure_bind]

omit [LawfulAllocator σ α] in
theorem reclaimAll_of_spent {level : Nat} {tree : Tree α level} (spent : tree.storage = 0)
    (options : Options) :
    (reclaimAll options (some { level, tree }) : Depot.Step σ Unit) = pure () :=
  (List.forM_toArray tree.row _).trans (forM_reclaim_of_spent spent options.clearsOnReturn)

/-- A settled sequence has let go of a tree to which nothing is lent, or has it still. -/
theorem records_settle {level : Nat} {tree : Tree α level} (here : s.root = some { level, tree })
    (spent : s.length = 0 → tree.storage = 0) :
    Records (s.settle : Depot.Step σ (Sequence α)) fun calls s' =>
      calls = [] ∧ s'.lent = if s.length = 0 then [] else tree.lent := by
  unfold settle
  split
  · rename_i zero
    simp only [detach, here, reclaimAll_of_spent (spent zero), pure_bind]
    apply (Depot.records_notify _).map
    rintro _ _ rfl
    exact ⟨rfl, rfl⟩
  · exact .pure ⟨rfl, lent_of_root here⟩

/-- The last segment gives up what nothing is left in, and then the sequence does. -/
theorem records_shorten {level : Nat} {tree other : Tree α level} {front front' : List (Buffer α)}
    {last : Buffer α} (packed : tree.Packed s.options.segmentCapacity front last)
    (total : s.length = tree.toList.length) (matched : other.Matches tree)
    (parts' : other.row = front' ++ [last]) {index : Nat} (inside : index < last.size)
    (removed : Option α) :
    Records (do
      let settled ← (last.without index).settle s.options
      let s' ← (({ s with
        root := some { level, tree := other.trimLast settled }
        length := s.length - 1 } : Sequence α).bump).settle
      return (removed, s') : Depot.Step σ (Option α × Sequence α)) fun calls answer =>
        Shortens s.options (front ++ [last]) calls answer.2.lent := by
  have length := total.trans packed.length_eq
  apply (Tree.records_trim matched packed.parts parts' inside packed.filled.fits).bind
  rintro calls settled (⟨another, rfl, lent'⟩ | ⟨single, rfl, none, some⟩)
  · have more : s.length - 1 ≠ 0 := by omega
    refine (records_settle rfl fun zero => absurd zero more).map ?_
    rintro _ s' ⟨rfl, kept⟩
    rw [kept.trans ((if_neg more).trans lent')]
    exact .kept another
  · have alone : s.length - 1 = 0 ↔ front = [] := by
      rw [length, single, Nat.add_sub_cancel, Nat.mul_eq_zero,
        or_iff_left (Nat.ne_of_gt packed.capacity_pos), List.length_eq_zero_iff]
    refine (records_settle rfl fun zero => none (alone.mp zero)).map ?_
    rintro _ s' ⟨rfl, kept⟩
    have lent' : s'.lent = front.map Buffer.capacity := by
      rw [kept]
      split
      · rename_i zero
        rw [alone.mp zero]
        rfl
      · rename_i more
        exact some (more ∘ alone.mpr)
    rw [lent']
    exact .dropped single

theorem records_removeAt (valid : s.Valid) {index : Nat} (inside : index < s.length) :
    Records (s.removeAt index : Depot.Step σ (Option α × Sequence α)) fun calls answer =>
      Shortens s.options s.segments.toList calls answer.2.lent := by
  unfold removeAt
  cases valid with
  | empty root zero => exact absurd inside (zero ▸ Nat.not_lt_zero index)
  | tree root packed total tail =>
    obtain ⟨other, front', index', removed, run, matched, parts', within, -, -⟩ :=
      packed.removeAt (σ := σ) (total ▸ inside)
    rw [segments_eq_row root, packed.parts]
    simp only [detach, root, run, bind_assoc, pure_bind]
    exact records_shorten packed total matched parts' within _

variable [BEq α] [Inhabited α]

/-- Whatever operations a sequence comes from, an insertion moves elements through all its segments
without a call, except that the last one grows, or another is opened behind it. A removal calls only
to give back the last segment, which it has emptied. All others stay as they are lent. -/
theorem Reachable.one_segment_calls (reachable : s.Reachable) (depot : Depot σ)
    (sound : LawfulAllocator.Sound depot.allocator) :
    (∀ index ≤ s.length, ∀ x : α, ∃ calls,
      ((s.insert index x).run depot).2.calls = depot.calls ++ calls.toArray ∧
        Lengthens s.options s.segments.toList calls ((s.insert index x).run depot).1.lent) ∧
    ∀ index < s.length, ∃ calls,
      ((s.removeAt index).run depot).2.calls = depot.calls ++ calls.toArray ∧
        Shortens s.options s.segments.toList calls ((s.removeAt index).run depot).1.2.lent :=
  ⟨fun _ inside x => (records_insert reachable.valid inside x depot sound).2,
    fun _ inside => (records_removeAt reachable.valid inside depot sound).2⟩

/-- An element put before thirty-three goes through two full segments into the third, without a
call; the removal of any gives the third back, and leaves the two as they were. -/
theorem one_segment_calls_of_three :
    let s : Sequence Nat := onHeap [.extend (List.range 33)]
    let depot : Depot (Heap Nat) := { allocator := ⟨⟩ }
    Lengthens s.options s.segments.toList [] ((s.insert 0 9).run depot).1.lent ∧
      Shortens s.options s.segments.toList [.release 16 0 true] [16, 16] := by
  intro s depot
  obtain ⟨insertions, removals⟩ :=
    (reachable_onHeap _).one_segment_calls (s := s) depot trivial
  obtain ⟨calls, record, lengthens⟩ := insertions 0 (Nat.zero_le _) 9
  obtain ⟨calls', record', shortens⟩ := removals 3 (by decide +kernel)
  have untouched : ((s.insert 0 9).run depot).2.calls = #[] := by decide +kernel
  have returned : ((s.removeAt 3).run depot).2.calls = #[.release 16 0 true] := by decide +kernel
  have left : ((s.removeAt 3).run depot).1.2.lent = [16, 16] := by decide +kernel
  obtain rfl : calls = [] :=
    congrArg Array.toList (Array.empty_append.symm.trans (record.symm.trans untouched))
  obtain rfl : calls' = [.release 16 0 true] :=
    congrArg Array.toList (Array.empty_append.symm.trans (record'.symm.trans returned))
  exact ⟨lengthens, left ▸ shortens⟩

end Sequence

end Segmented
