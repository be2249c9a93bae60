import Mathlib.Data.List.SplitLengths
import Segmented.Proofs.SequenceStep

/-! The segments of a valid sequence are determined by its length and its segment capacity, and so
is the least number of levels that it can have. -/

namespace Segmented

variable {α : Type}

namespace Sequence

variable {s t : Sequence α}

/-- The sizes of the segments that hold `length` elements: all full but the last. -/
def layout (capacity length : Nat) : List Nat :=
  if length = 0 then []
  else List.replicate ((length - 1) / capacity) capacity ++ [(length - 1) % capacity + 1]

theorem Valid.sizes_eq_layout (valid : s.Valid) :
    s.segments.toList.map Buffer.size = layout s.options.segmentCapacity s.length := by
  have positive := s.options.segmentCapacity_pos
  cases valid with
  | empty root zero => simp [segments, root, layout, zero]
  | tree root packed total tail =>
    rename_i level tree front last
    have row : s.segments.toList = front ++ [last] := (segments_eq_row root).trans packed.parts
    have nonempty := packed.filled.positive
    have bounded := packed.filled.bounded
    have length := total.trans packed.length_eq
    have before : s.length - 1 = last.size - 1 + s.options.segmentCapacity * front.length := by
      rw [length, Nat.mul_comm]
      omega
    have quotient : (s.length - 1) / s.options.segmentCapacity = front.length := by
      rw [before, Nat.add_mul_div_left _ _ positive, Nat.div_eq_of_lt (by omega), Nat.zero_add]
    have remainder : (s.length - 1) % s.options.segmentCapacity + 1 = last.size := by
      rw [before, Nat.add_mul_mod_self_left, Nat.mod_eq_of_lt (by omega)]
      omega
    have full : front.map Buffer.size = List.replicate front.length s.options.segmentCapacity :=
      List.map_eq_replicate_iff.mpr fun segment member => (packed.full segment member).size
    rw [row, layout, if_neg (by omega), quotient, remainder, List.map_append, full]
    rfl

/-- Valid sequences of one length and one segment capacity lie in segments of the same sizes. -/
theorem Valid.sizes_congr (valid : s.Valid) (valid' : t.Valid) (length : t.length = s.length)
    (capacity : t.options.segmentCapacity = s.options.segmentCapacity) :
    t.segments.toList.map Buffer.size = s.segments.toList.map Buffer.size := by
  rw [valid.sizes_eq_layout, valid'.sizes_eq_layout, length, capacity]

theorem splitLengths_flatten (parts : List (List α)) :
    (parts.map List.length).splitLengths parts.flatten = parts := by
  induction parts with
  | nil => rfl
  | cons part rest ih => simp [ih]

/-- What lies in the segments follows from the segment capacity and the elements alone. -/
theorem Valid.segments_eq_split (valid : s.Valid) :
    s.segments.toList.map Buffer.toList =
      (layout s.options.segmentCapacity s.toList.length).splitLengths s.toList := by
  have sizes := valid.sizes_eq_layout
  have contents := flatMap_segments s
  rw [List.flatMap_def] at contents
  have lengths : s.segments.toList.map Buffer.size =
      (s.segments.toList.map Buffer.toList).map List.length := by
    rw [List.map_map]
    rfl
  rw [valid.length_eq, lengths] at sizes
  calc s.segments.toList.map Buffer.toList
    _ = ((s.segments.toList.map Buffer.toList).map List.length).splitLengths
          (s.segments.toList.map Buffer.toList).flatten := (splitLengths_flatten _).symm
    _ = (layout s.options.segmentCapacity s.toList.length).splitLengths s.toList := by
      rw [sizes, contents]

theorem Valid.segmentCount_congr (valid : s.Valid) (valid' : t.Valid) (length : t.length = s.length)
    (capacity : t.options.segmentCapacity = s.options.segmentCapacity) :
    t.segmentCount = s.segmentCount := by
  have same := congrArg List.length (valid.sizes_congr valid' length capacity)
  rwa [List.length_map, List.length_map, ← segmentCount_eq_length, ← segmentCount_eq_length]
    at same

theorem Valid.segmentCount_le (valid : s.Valid) : s.segmentCount ≤ s.length := by
  rw [segmentCount_eq_length, ← List.length_map Buffer.size, valid.sizes_eq_layout, layout]
  split
  · exact Nat.zero_le _
  · rw [List.length_append, List.length_replicate, List.length_singleton]
    have fewer := Nat.div_le_self (s.length - 1) s.options.segmentCapacity
    omega

/-! ### Segments by number -/

theorem Valid.getElem?_eq_segment (valid : s.Valid) (index : Nat) :
    s.toList[index]? = (s.segments.toList[index / s.options.segmentCapacity]?).bind
      (·.items[index % s.options.segmentCapacity]?) := by
  cases valid with
  | empty root =>
    rw [toList_of_root_none root]
    simp [segments, root]
  | tree root packed => rw [toList_of_root root, segments_eq_row root, packed.getElem?_eq]

/-- The segments are as many as start before the end. -/
theorem Valid.lt_length_segments_iff (valid : s.Valid) (number : Nat) :
    number < s.segments.toList.length ↔ number * s.options.segmentCapacity < s.length := by
  cases valid with
  | empty root zero => simp [segments, root, zero]
  | tree root packed total tail =>
    rename_i front last
    have nonempty := packed.filled.positive
    have bounded := packed.filled.bounded
    rw [segments_eq_row root, packed.parts, total, packed.length_eq, List.length_append,
      List.length_singleton, Nat.lt_succ_iff]
    constructor
    · intro within
      have starts := Nat.mul_le_mul_right s.options.segmentCapacity within
      omega
    · intro starts
      refine Nat.not_lt.mp fun beyond => ?_
      have past := Nat.mul_le_mul_right s.options.segmentCapacity beyond
      rw [Nat.succ_mul] at past
      omega

/-- A segment holds what is left from its start on, up to its capacity. -/
theorem Valid.size_segment (valid : s.Valid) {number : Nat} {segment : Buffer α}
    (here : s.segments.toList[number]? = some segment) :
    segment.size = min s.options.segmentCapacity
      (s.length - number * s.options.segmentCapacity) := by
  cases valid with
  | empty root => simp [segments, root] at here
  | tree root packed total tail =>
    rename_i front last
    have bounded := packed.filled.bounded
    rw [segments_eq_row root, packed.parts] at here
    rw [total, packed.length_eq]
    by_cases inFront : number < front.length
    · rw [List.getElem?_append_left inFront] at here
      have full := (packed.full segment (List.mem_of_getElem? here)).size
      have before := Nat.mul_le_mul_right s.options.segmentCapacity inFront
      rw [Nat.succ_mul] at before
      omega
    · rw [List.getElem?_append_right (Nat.not_lt.mp inFront)] at here
      cases atEnd : number - front.length with
      | zero =>
        rw [atEnd] at here
        cases here
        obtain rfl : number = front.length := by omega
        omega
      | succ beyond =>
        rw [atEnd] at here
        cases here

/-- The segments in front of a number are full, if there is one of that number. -/
theorem Valid.length_take_segments (valid : s.Valid) {number : Nat}
    (bound : number < s.segments.toList.length) :
    ((s.segments.toList.take number).flatMap Buffer.toList).length =
      number * s.options.segmentCapacity := by
  have starts := (valid.lt_length_segments_iff number).mp bound
  have wide : ∀ segment ∈ s.segments.toList.take number,
      segment.toList.length = s.options.segmentCapacity := by
    intro segment member
    obtain ⟨position, here⟩ := List.mem_iff_getElem?.mp member
    rw [List.getElem?_take] at here
    split at here
    · rename_i before
      have ends := Nat.mul_le_mul_right s.options.segmentCapacity before
      rw [Nat.succ_mul] at ends
      rw [Buffer.length_toList, valid.size_segment here]
      omega
    · cases here
  rw [length_flatMap_of_width wide, List.length_take_of_le (Nat.le_of_lt bound)]

/-! ### Depth -/

/-- The number of elements that trees of so many levels can hold. -/
def room (capacity : Nat) : Nat → Nat
  | 0 => 0
  | level + 1 => Tree.span capacity level

theorem leaves_mono {level other : Nat} (order : level ≤ other) :
    Tree.leaves level ≤ Tree.leaves other := by
  induction order with
  | refl => exact Nat.le_refl _
  | step _ ih => exact Nat.le_trans ih (Nat.le_mul_of_pos_left _ (by decide))

theorem Valid.length_le_room (valid : s.Valid) :
    s.length ≤ room s.options.segmentCapacity s.depth := by
  cases valid with
  | empty root zero => simp [zero]
  | tree root packed total =>
    rw [total, depth, root]
    exact packed.length_le_span

/-- A tight sequence has no more levels than its elements need. -/
theorem Valid.depth_le (valid : s.Valid) (tight : s.Tight) {levels : Nat}
    (enough : s.length ≤ room s.options.segmentCapacity levels) : s.depth ≤ levels := by
  cases valid with
  | empty root => simp [depth, root]
  | tree root packed total tail =>
    rename_i level tree front last
    have nonempty := packed.filled.positive
    have length := total.trans packed.length_eq
    have deep : s.depth = level + 1 := by simp [depth, root]
    cases levels with
    | zero => exact absurd (Nat.le_zero.mp enough) (by omega)
    | succ lower =>
      rw [deep]
      refine Nat.succ_le_succ (Nat.not_lt.mp fun below => ?_)
      obtain ⟨below', rfl⟩ := Nat.exists_eq_add_of_le' (Nat.one_le_of_lt below)
      have many := tight _ root below' rfl
      rw [packed.parts, List.length_append] at many
      have few : Tree.leaves lower ≤ front.length :=
        Nat.le_trans (leaves_mono (Nat.le_of_lt_succ below)) (Nat.le_of_lt_succ many)
      have filled := Nat.mul_le_mul_right s.options.segmentCapacity few
      rw [room, Tree.span_eq, Nat.mul_comm] at enough
      omega

end Sequence

end Segmented
