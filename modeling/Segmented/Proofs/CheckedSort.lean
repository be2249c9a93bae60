import Segmented.Proofs.CheckedInPlace

/-! The sort in place of a deep sequence, with every check it makes: each position is worked out in
words, and each element is reached through the tree. It does to the sequence what the sort of an
array does to the array of the elements. -/

namespace Segmented

/-- Where the plain calculation has an answer, the checked one has a related one. -/
def Tracks {ρ τ : Type} (related : ρ → τ → Prop) (checked : Except Fault ρ)
    (plain : Except Error τ) : Prop :=
  ∀ answer, plain = .ok answer → ∃ answer', checked = .ok answer' ∧ related answer' answer

namespace Tracks

variable {ρ ρ' τ τ' : Type} {related : ρ → τ → Prop} {related' : ρ' → τ' → Prop}

theorem pure {answer' : ρ} {answer : τ} (holds : related answer' answer) :
    Tracks related (.ok answer') (.ok answer) := by
  rintro _ ⟨⟩
  exact ⟨answer', rfl, holds⟩

theorem bind {first : Except Fault ρ} {next : ρ → Except Fault ρ'} {plain : Except Error τ}
    {later : τ → Except Error τ'} (tracks : Tracks related first plain)
    (tracks' : ∀ answer' answer, related answer' answer →
      Tracks related' (next answer') (later answer)) :
    Tracks related' (first >>= next) (plain >>= later) := by
  cases plain with
  | error error => exact fun _ => nofun
  | ok answer =>
    obtain ⟨answer', rfl, holds⟩ := tracks answer rfl
    exact tracks' answer' answer holds

/-- A check of the words alone. -/
theorem check {first : Except Fault ρ'} {answer : ρ'} {next : ρ' → Except Fault ρ}
    {plain : Except Error τ} (passed : first = .ok answer)
    (tracks : Tracks related (next answer) plain) : Tracks related (first >>= next) plain := by
  subst passed
  exact tracks

end Tracks

namespace Sequence

variable {α : Type}

/-- The element at `first` comes before the one at `second`. -/
def checkedPrecedes (order : α → α → Ordering) (first second : Nat) (s : Sequence α) :
    Except Fault Bool := do
  let x ← s.demand first
  let y ← s.demand second
  return order x y == .lt

/-! ### Insertion sort -/

def checkedSink (order : α → α → Ordering) (start : Nat) :
    Nat → Sequence α → Except Fault (Sequence α)
  | 0, s => .ok s
  | distance + 1, s => do
    let below ← Word.sub (start + distance + 1) 1
    if ← s.checkedPrecedes order (start + distance + 1) below then
      let s ← s.checkedExchange (start + distance + 1) below
      checkedSink order start distance s
    else
      return s

def checkedSinkAll (order : α → α → Ordering) (start : Nat) :
    Nat → Nat → Sequence α → Except Fault (Sequence α)
  | _, 0, s => .ok s
  | distance, count + 1, s => do
    let s ← checkedSink order start distance s
    checkedSinkAll order start (distance + 1) count s

def checkedInsertionSort (order : α → α → Ordering) (start stop : Nat) (s : Sequence α) :
    Except Fault (Sequence α) := do
  let second ← Word.add 64 start 1
  checkedSinkAll order start 1 (stop - second) s

/-! ### Heapsort -/

def checkedPrefersRight (order : α → α → Ordering) (start size left : Nat) (s : Sequence α) :
    Except Fault Bool := do
  let right ← Word.add 64 left 1
  if right < size then
    let first ← Word.add 64 start left
    let second ← Word.add 64 first 1
    s.checkedPrecedes order first second
  else
    return false

def checkedSiftDown (order : α → α → Ordering) (start size node : Nat) (s : Sequence α) :
    Except Fault (Sequence α) := do
  let twice ← Word.mul 64 2 node
  let _ ← Word.add 64 twice 1
  let left := 2 * node + 1
  if left < size then
    let more ← s.checkedPrefersRight order start size left
    let child := left + more.toNat
    let parent ← Word.add 64 start node
    let larger ← Word.add 64 start child
    if ← s.checkedPrecedes order parent larger then
      let s ← s.checkedExchange parent larger
      checkedSiftDown order start size child s
    else
      return s
  else
    return s
termination_by size - node

def checkedBuildHeap (order : α → α → Ordering) (start size : Nat) :
    Nat → Sequence α → Except Fault (Sequence α)
  | 0, s => .ok s
  | count + 1, s => do
    let s ← checkedSiftDown order start size count s
    checkedBuildHeap order start size count s

def checkedEmptyHeap (order : α → α → Ordering) (start : Nat) :
    Nat → Sequence α → Except Fault (Sequence α)
  | 0, s => .ok s
  | count + 1, s => do
    let last ← Word.add 64 start (count + 1)
    let s ← s.checkedExchange start last
    let s ← checkedSiftDown order start (count + 1) 0 s
    checkedEmptyHeap order start count s

def checkedHeapsort (order : α → α → Ordering) (start stop : Nat) (s : Sequence α) :
    Except Fault (Sequence α) := do
  let size ← Word.sub stop start
  if size < 2 then
    return s
  else
    let s ← checkedBuildHeap order start size (size / 2) s
    checkedEmptyHeap order start (size - 1) s

/-! ### Quicksort -/

def checkedMedian (order : α → α → Ordering) (a b c : Nat) (s : Sequence α) :
    Except Fault Nat := do
  if ← s.checkedPrecedes order a b then
    if ← s.checkedPrecedes order b c then return b
    else if ← s.checkedPrecedes order a c then return c
    else return a
  else if ← s.checkedPrecedes order a c then return a
  else if ← s.checkedPrecedes order b c then return c
  else return b

def checkedPartitionAround (order : α → α → Ordering) (pivot left right : Nat) (s : Sequence α) :
    Except Fault (Nat × Sequence α) := do
  if left ≤ right then
    if ← s.checkedPrecedes order left pivot then
      let _ ← Word.add 64 left 1
      checkedPartitionAround order pivot (left + 1) right s
    else
      match same : right with
      | 0 => throw (.underflow 0 1)
      | below + 1 =>
        if ← s.checkedPrecedes order (below + 1) pivot then
          let s ← s.checkedExchange left (below + 1)
          let _ ← Word.add 64 left 1
          checkedPartitionAround order pivot (left + 1) below s
        else
          checkedPartitionAround order pivot left below s
  else
    return (right, s)
termination_by right + 1 - left
decreasing_by all_goals omega

def checkedPartition (order : α → α → Ordering) (start stop : Nat) (s : Sequence α) :
    Except Fault (Nat × Sequence α) := do
  let left ← Word.add 64 start 1
  let right ← Word.sub stop 1
  let (middle, s) ← checkedPartitionAround order start left right s
  let s ← s.checkedExchange start middle
  return (middle, s)

def checkedSortRange (order : α → α → Ordering) :
    Nat → Nat → Nat → Sequence α → Except Fault (Sequence α)
  | rounds, start, stop, s => do
    let size ← Word.sub stop start
    if size ≤ Introsort.insertionLimit then
      checkedInsertionSort order start stop s
    else
      match rounds with
      | 0 => checkedHeapsort order start stop s
      | rounds + 1 =>
        let between ← Word.add 64 start (size / 2)
        let last ← Word.sub stop 1
        let pivot ← checkedMedian order start between last s
        let s ← s.checkedExchange start pivot
        let (middle, s) ← checkedPartition order start stop s
        let front ← Word.sub middle start
        let back ← Word.sub (← Word.sub stop middle) 1
        let next ← Word.add 64 middle 1
        if front < back then
          let s ← checkedSortRange order rounds start middle s
          checkedSortRange order rounds next stop s
        else
          let s ← checkedSortRange order rounds next stop s
          checkedSortRange order rounds start middle s

/-- Sorts the elements where they are, with twice as many rounds as the length has binary digits. -/
def checkedIntrosort (order : α → α → Ordering) (s : Sequence α) : Except Fault (Sequence α) := do
  let size ← Word.sub s.length 0
  if size < 2 then
    return s
  else
    let digits ← Word.sub 64 (63 - size.log2)
    let rounds ← Word.mul 32 2 digits
    checkedSortRange order rounds 0 s.length s

/-! ### The sort of an array -/

/-- The items of an array lie in the segments of a sequence. -/
structure Holds (s s' : Sequence α) (v : Array α) : Prop where
  size : v.size = s.length
  same : s' = s.refill v

section

variable {s s' : Sequence α} {v : Array α} (valid : s.Valid) (small : s.length ≤ 2 ^ 63)
  (order : α → α → Ordering)

include valid small

theorem Holds.tracks_demand (holds : s.Holds s' v) (index : Nat) :
    Tracks Eq (s'.demand index) (Introsort.read v index) := by
  intro x here
  unfold Introsort.read at here
  split at here
  · rename_i found
    cases here
    obtain ⟨inside, rfl⟩ := Array.getElem?_eq_some_iff.mp found
    have same := valid.toArray_refill holds.size
    have valid' := (follows_refill valid holds.size).2.valid
    have length : (s.refill v).length = v.size := by
      rw [valid'.length_eq, (follows_refill valid holds.size).2.elements, Array.length_toList]
    have size := holds.size
    refine ⟨_, ?_, rfl⟩
    rw [holds.same, valid'.demand_eq (by omega) (by rw [same]; exact inside)]
    simp only [same]
  · cases here

theorem Holds.tracks_precedes (holds : s.Holds s' v) (first second : Nat) :
    Tracks Eq (s'.checkedPrecedes order first second)
      (Introsort.precedes order v first second) := by
  refine (holds.tracks_demand valid small first).bind fun x' x same => ?_
  refine (holds.tracks_demand valid small second).bind fun y' y same' => ?_
  rw [same, same']
  exact Tracks.pure rfl

theorem Holds.tracks_exchange (holds : s.Holds s' v) (first second : Nat) :
    Tracks s.Holds (s'.checkedExchange first second) (Introsort.exchange v first second) := by
  intro w exchanged
  unfold Introsort.exchange at exchanged
  split at exchanged
  · rename_i inside
    cases exchanged
    refine ⟨_, ?_, Array.size_swap.trans holds.size, rfl⟩
    rw [holds.same]
    exact valid.checkedExchange_refill (by omega) holds.size inside.1 inside.2
  · cases exchanged

/-! #### Insertion sort -/

theorem Holds.tracks_sink (holds : s.Holds s' v) (start distance : Nat) :
    Tracks s.Holds (checkedSink order start distance s')
      (Introsort.sink order start distance v) := by
  induction distance generalizing s' v with
  | zero => exact Tracks.pure holds
  | succ distance ih =>
    rw [checkedSink, Introsort.sink]
    refine Tracks.check (Word.sub_eq (Nat.le_add_left ..)) ?_
    refine (holds.tracks_precedes valid small order _ _).bind fun before _ same => ?_
    subst same
    cases before with
    | false => exact Tracks.pure holds
    | true =>
      exact (holds.tracks_exchange valid small _ _).bind fun s'' w holds' => ih holds'

theorem Holds.tracks_sinkAll (holds : s.Holds s' v) (start distance count : Nat) :
    Tracks s.Holds (checkedSinkAll order start distance count s')
      (Introsort.sinkAll order start distance count v) := by
  induction count generalizing s' v distance with
  | zero => exact Tracks.pure holds
  | succ count ih =>
    exact (holds.tracks_sink valid small order start distance).bind fun s'' w holds' =>
      ih holds' (distance + 1)

theorem Holds.tracks_insertionSort (holds : s.Holds s' v) {start : Nat} (inside : start ≤ s.length)
    (stop : Nat) :
    Tracks s.Holds (checkedInsertionSort order start stop s')
      (Introsort.insertionSort order start stop v) := by
  refine Tracks.check (Word.add_eq (by omega)) ?_
  rw [← Nat.sub_sub]
  exact holds.tracks_sinkAll valid small order start 1 _

/-! #### Heapsort -/

theorem Holds.tracks_prefersRight (holds : s.Holds s' v) {start size left : Nat}
    (inside : start + size ≤ s.length) (within : left < size) :
    Tracks (fun more more' => more = more' ∧ left + more.toNat < size)
      (s'.checkedPrefersRight order start size left)
      (Introsort.prefersRight order start size left v) := by
  refine Tracks.check (Word.add_eq (by omega)) ?_
  unfold Introsort.prefersRight
  split
  · refine Tracks.check (Word.add_eq (by omega)) (Tracks.check (Word.add_eq (by omega)) ?_)
    intro more compared
    obtain ⟨more', checked, rfl⟩ := holds.tracks_precedes valid small order _ _ more compared
    have few := more'.toNat_le
    exact ⟨more', checked, rfl, by omega⟩
  · exact Tracks.pure ⟨rfl, within⟩

theorem Holds.tracks_siftDown (holds : s.Holds s' v) {start size node : Nat}
    (inside : start + size ≤ s.length) (within : node < size) :
    Tracks s.Holds (checkedSiftDown order start size node s')
      (Introsort.siftDown order start size node v) := by
  induction below : size - node using Nat.strongRecOn generalizing node s' v with
  | ind below ih =>
    rw [checkedSiftDown, Introsort.siftDown]
    refine Tracks.check (Word.mul_eq (by omega)) (Tracks.check (Word.add_eq (by omega)) ?_)
    dsimp only
    split
    · rename_i left
      refine (holds.tracks_prefersRight valid small order inside left).bind ?_
      rintro more _ ⟨rfl, child⟩
      refine Tracks.check (Word.add_eq (by omega)) (Tracks.check (Word.add_eq (by omega)) ?_)
      refine (holds.tracks_precedes valid small order _ _).bind fun larger _ same => ?_
      subst same
      cases larger with
      | false => exact Tracks.pure holds
      | true =>
        refine (holds.tracks_exchange valid small _ _).bind fun s'' w holds' => ?_
        exact ih (size - (2 * node + 1 + more.toNat)) (by omega) holds' child rfl
    · exact Tracks.pure holds

theorem Holds.tracks_buildHeap (holds : s.Holds s' v) {start size count : Nat}
    (inside : start + size ≤ s.length) (within : count ≤ size) :
    Tracks s.Holds (checkedBuildHeap order start size count s')
      (Introsort.buildHeap order start size count v) := by
  induction count generalizing s' v with
  | zero => exact Tracks.pure holds
  | succ count ih =>
    exact (holds.tracks_siftDown valid small order inside within).bind fun s'' w holds' =>
      ih holds' (Nat.le_of_succ_le within)

theorem Holds.tracks_emptyHeap (holds : s.Holds s' v) {start count : Nat}
    (inside : start + count < s.length) :
    Tracks s.Holds (checkedEmptyHeap order start count s')
      (Introsort.emptyHeap order start count v) := by
  induction count generalizing s' v with
  | zero => exact Tracks.pure holds
  | succ count ih =>
    refine Tracks.check (Word.add_eq (by omega)) ?_
    refine (holds.tracks_exchange valid small _ _).bind fun s'' w holds' => ?_
    refine (holds'.tracks_siftDown valid small order (by omega) (Nat.succ_pos _)).bind ?_
    exact fun _ _ holds'' => ih holds'' (by omega)

theorem Holds.tracks_heapsort (holds : s.Holds s' v) {start stop : Nat} (several : start + 1 < stop)
    (inside : stop ≤ s.length) :
    Tracks s.Holds (checkedHeapsort order start stop s')
      (Introsort.heapsort order start stop v) := by
  refine Tracks.check (Word.sub_eq (by omega)) ?_
  rw [if_neg (by omega)]
  refine (holds.tracks_buildHeap valid small order (by omega) (Nat.div_le_self ..)).bind ?_
  exact fun _ _ holds' => holds'.tracks_emptyHeap valid small order (by omega)

/-! #### Quicksort -/

theorem Holds.tracks_median (holds : s.Holds s' v) (a b c : Nat) :
    Tracks Eq (s'.checkedMedian order a b c) (Introsort.medianOfThree order v a b c) := by
  have compare (first second : Nat) := holds.tracks_precedes valid small order first second
  refine (compare a b).bind fun ab _ same => ?_
  subst same
  cases ab with
  | true =>
    refine (compare b c).bind fun bc _ same => ?_
    subst same
    cases bc with
    | true => exact Tracks.pure rfl
    | false =>
      refine (compare a c).bind fun ac _ same => ?_
      subst same
      cases ac <;> exact Tracks.pure rfl
  | false =>
    refine (compare a c).bind fun ac _ same => ?_
    subst same
    cases ac with
    | true => exact Tracks.pure rfl
    | false =>
      refine (compare b c).bind fun bc _ same => ?_
      subst same
      cases bc <;> exact Tracks.pure rfl

/-- The same position, and the same sequence. -/
def HoldsAt (s : Sequence α) (found : Nat × Sequence α) (found' : Nat × Array α) : Prop :=
  found.1 = found'.1 ∧ s.Holds found.2 found'.2

theorem Holds.tracks_partitionAround (holds : s.Holds s' v) {pivot left right : Nat}
    (inside : right < s.length) :
    Tracks s.HoldsAt (checkedPartitionAround order pivot left right s')
      (Introsort.partitionAround order pivot left right v) := by
  induction width : right + 1 - left using Nat.strongRecOn generalizing left right s' v with
  | ind width ih =>
    rw [checkedPartitionAround.eq_def, Introsort.partitionAround.eq_def]
    split
    · rename_i nonempty
      refine (holds.tracks_precedes valid small order _ _).bind fun before _ same => ?_
      subst same
      cases before with
      | true =>
        refine Tracks.check (Word.add_eq (by omega)) ?_
        exact ih _ (by omega) holds inside rfl
      | false =>
        cases right with
        | zero => exact fun _ => nofun
        | succ below =>
          refine (holds.tracks_precedes valid small order _ _).bind fun after _ same => ?_
          subst same
          cases after with
          | true =>
            refine (holds.tracks_exchange valid small _ _).bind fun s'' w holds' => ?_
            refine Tracks.check (Word.add_eq (by omega)) ?_
            exact ih _ (by omega) holds' (Nat.lt_of_succ_lt inside) rfl
          | false => exact ih _ (by omega) holds (Nat.lt_of_succ_lt inside) rfl
    · exact Tracks.pure ⟨rfl, holds⟩

theorem Holds.tracks_partition (holds : s.Holds s' v) {start stop : Nat}
    (several : start + 1 < stop) (inside : stop ≤ s.length) :
    Tracks (fun found found' => s.HoldsAt found found' ∧ start ≤ found.1 ∧ found.1 < stop)
      (checkedPartition order start stop s') (Introsort.partition order start stop v) := by
  have checked : Tracks s.HoldsAt (checkedPartition order start stop s')
      (Introsort.partition order start stop v) := by
    refine Tracks.check (Word.add_eq (by omega)) (Tracks.check (Word.sub_eq (by omega)) ?_)
    refine (holds.tracks_partitionAround valid small order (by omega)).bind ?_
    rintro ⟨middle, s''⟩ ⟨_, w⟩ ⟨rfl, holds'⟩
    have exchanged := holds'.tracks_exchange valid small start middle
    exact exchanged.bind fun _ _ holds'' => Tracks.pure ⟨rfl, holds''⟩
  rintro ⟨middle, w⟩ done
  obtain ⟨middle', w', done', -, low, high⟩ :=
    Introsort.partition_ok order (Nat.le_trans inside (Nat.le_of_eq holds.size.symm)) several
  obtain ⟨⟨_, s''⟩, run, rfl, holds'⟩ := checked _ done
  cases done.symm.trans done'
  exact ⟨_, run, ⟨rfl, holds'⟩, low, high⟩

theorem Holds.tracks_sortRange (holds : s.Holds s' v) (rounds : Nat) {start stop : Nat}
    (begun : start ≤ stop) (inside : stop ≤ s.length) :
    Tracks s.Holds (checkedSortRange order rounds start stop s')
      (Introsort.sortRange order rounds start stop v) := by
  induction rounds generalizing start stop s' v with
  | zero =>
    unfold checkedSortRange Introsort.sortRange
    refine Tracks.check (Word.sub_eq begun) ?_
    split
    · exact holds.tracks_insertionSort valid small order (by omega) stop
    · rename_i long
      unfold Introsort.insertionLimit at long
      exact holds.tracks_heapsort valid small order (by omega) inside
  | succ rounds ih =>
    unfold checkedSortRange Introsort.sortRange
    refine Tracks.check (Word.sub_eq begun) ?_
    split
    · exact holds.tracks_insertionSort valid small order (by omega) stop
    · rename_i long
      unfold Introsort.insertionLimit at long
      refine Tracks.check (Word.add_eq (by omega)) (Tracks.check (Word.sub_eq (by omega)) ?_)
      refine (holds.tracks_median valid small order _ _ _).bind fun pivot _ same => ?_
      subst same
      refine (holds.tracks_exchange valid small _ _).bind fun _ _ holds => ?_
      refine (holds.tracks_partition valid small order (by omega) inside).bind ?_
      rintro ⟨middle, s''⟩ ⟨_, w⟩ ⟨⟨rfl, holds'⟩, low, high⟩
      dsimp only at low high holds' ⊢
      -- The pivot is within the range, whatever the comparator answers, and so are both its sides.
      refine Tracks.check (Word.sub_eq low) (Tracks.check (Word.sub_eq (by omega)) ?_)
      refine Tracks.check (Word.sub_eq (by omega)) (Tracks.check (Word.add_eq (by omega)) ?_)
      split
      · exact (ih holds' low (by omega)).bind fun _ _ holds'' => ih holds'' (by omega) inside
      · exact (ih holds' (by omega) inside).bind fun _ _ holds'' => ih holds'' low (by omega)

end

/-- The sort in place of a sequence does what the sort of the array of its elements does. -/
theorem Valid.checkedIntrosort_eq {s : Sequence α} (valid : s.Valid) (small : s.length ≤ 2 ^ 63)
    (order : α → α → Ordering) :
    ∃ sorted : Array α, Introsort.sort order s.toArray = .ok sorted ∧
      s.checkedIntrosort order = .ok (s.refill sorted) := by
  have length : s.length = s.toArray.size := valid.length_eq
  obtain ⟨sorted, done, -⟩ := Introsort.permutes_sort order s.toArray
  refine ⟨sorted, done, ?_⟩
  have holds : s.Holds s s.toArray := ⟨length.symm, valid.refill_toArray.symm⟩
  suffices tracks : Tracks s.Holds (s.checkedIntrosort order) (Introsort.sort order s.toArray) by
    obtain ⟨_, checked, holds'⟩ := tracks sorted done
    rw [checked, holds'.same]
  unfold checkedIntrosort Introsort.sort
  refine Tracks.check (Word.sub_eq (Nat.zero_le _)) ?_
  rw [Nat.sub_zero, ← length]
  split
  · exact Tracks.pure holds
  · rename_i several
    have digits : s.length.log2 < 64 := (Nat.log2_lt (by omega)).mpr (by omega)
    have rounds : 2 * (64 - (63 - s.length.log2)) = 2 * (s.length.log2 + 1) := by omega
    refine Tracks.check (Word.sub_eq (by omega)) (Tracks.check (Word.mul_eq (by omega)) ?_)
    rw [rounds]
    exact holds.tracks_sortRange valid small order _ (Nat.zero_le _) (Nat.le_refl _)

end Sequence

end Segmented
