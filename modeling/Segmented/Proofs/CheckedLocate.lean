import Segmented.Proofs.CheckedInPlace
import Segmented.Proofs.CheckedScan

/-! Linear and binary search of a sequence with every check they make. A single segment is searched
as one run of storage, from the start of the range on. -/

namespace Segmented

/-! ### Binary search -/

namespace Bisect

/-- Narrows the range from `low` below `high`, with positions worked out in words. -/
def checkedBetween (look : Nat → Except Fault (Option Ordering)) (low high : Nat) :
    Except Fault Location :=
  if low < high then do
    let size ← Word.sub high low
    let middle ← Word.add 64 low (size / 2)
    match ← look middle with
    | none => return .missing low
    | some .lt =>
      let _ ← Word.add 64 middle 1
      checkedBetween look (low + (high - low) / 2 + 1) high
    | some .gt => checkedBetween look low (low + (high - low) / 2)
    | some .eq => return .found middle
  else .ok (.missing low)
termination_by high - low

/-- A location in a run that begins at `start`. -/
def relocate (start : Nat) : Location → Except Fault Location
  | .found index => do return .found (← Word.add 64 index start)
  | .missing index => do return .missing (← Word.add 64 index start)

theorem checkedBetween_eq {look : Nat → Except Fault (Option Ordering)}
    {order : Nat → Option Ordering} (same : ∀ index, look index = .ok (order index))
    {low high : Nat} (small : high < 2 ^ 64) :
    checkedBetween look low high = .ok (between order low high) := by
  induction size : high - low using Nat.strongRecOn generalizing low high with
  | ind size ih =>
    rw [checkedBetween, between]
    split
    · rename_i some
      rw [Word.sub_eq (by omega)]
      dsimp only [bind, Except.bind]
      rw [Word.add_eq (by omega)]
      dsimp only
      rw [same]
      dsimp only
      cases order (low + (high - low) / 2) with
      | none => rfl
      | some answer =>
        cases answer with
        | lt =>
          dsimp only
          rw [Word.add_eq (by omega)]
          exact ih _ (by omega) small rfl
        | gt => exact ih _ (by omega) (by omega) rfl
        | eq => rfl
    · rfl

variable {order order' : Nat → Option Ordering} {start size : Nat}

/-- Halving ends inside the run. -/
theorem lastNotGreater_lt (some : 0 < size) (base : Nat) :
    lastNotGreater order base size < base + size := by
  induction size using Nat.strongRecOn generalizing base with
  | ind size ih =>
    rw [lastNotGreater]
    split
    · have upper := ih (size - size / 2) (by omega) (by omega)
      dsimp only
      split
      · have := upper base
        omega
      · have := upper (base + size / 2)
        omega
    · omega

/-- A run is halved in the same way wherever it begins. -/
theorem lastNotGreater_add (base : Nat)
    (same : ∀ index < base + size, order (start + index) = order' index) :
    lastNotGreater order (start + base) size = start + lastNotGreater order' base size := by
  induction size using Nat.strongRecOn generalizing base with
  | ind size ih =>
    have half := ih (size - size / 2)
    conv_lhs => rw [lastNotGreater]
    conv_rhs => rw [lastNotGreater]
    split
    · dsimp only
      rw [Nat.add_assoc, same _ (by omega)]
      split
      · exact half (by omega) base fun index inside => same index (by omega)
      · exact half (by omega) (base + size / 2) fun index inside => same index (by omega)
    · rfl

/-- The search of a run answers where in the whole the element is or belongs. -/
theorem relocate_halving (same : ∀ index < size, order (start + index) = order' index)
    (small : start + size < 2 ^ 64) :
    relocate start (halving order' 0 size) = .ok (halving order start (start + size)) := by
  unfold halving
  by_cases some : 0 < size
  · have base : lastNotGreater order start size = start + lastNotGreater order' 0 size :=
      lastNotGreater_add 0 (by simpa using same)
    have bound : lastNotGreater order' 0 size < 0 + size := lastNotGreater_lt some 0
    rw [if_pos some, if_pos (by omega), Nat.sub_zero, Nat.add_sub_cancel_left, base]
    dsimp only
    rw [same _ (by omega), Nat.add_comm start]
    split
    · rw [relocate, Word.add_eq (by omega)]
      rfl
    · rw [relocate, Word.add_eq (by omega), Nat.add_right_comm]
      rfl
    · rw [relocate, Word.add_eq (by omega)]
      rfl
  · rw [if_neg some, if_neg (by omega), relocate, Word.add_eq (by omega), Nat.zero_add]
    rfl

end Bisect

namespace Sequence

variable {α S : Type}

/-- What is done with the run of storage of a sequence in one segment, or else with its tree. -/
def byShape {τ : Type} (run : Array α → τ) (deep : Root α → τ) (s : Sequence α) : τ :=
  match s.root with
  | none => run #[]
  | some { level := 0, tree := (buffer : Buffer α) } => run buffer.items
  | some root => deep root

/-- What is done when the range is one of the sequence. -/
def inRange {m : Type → Type} [Monad m] {τ : Type} (start stop : Nat) (step : m τ)
    (s : Sequence α) : m (Except Error τ) :=
  match s.checkRange start stop with
  | .error error => return .error error
  | .ok () => do return .ok (← step)

/-! ### Linear search -/

def checkedFindWithin (test : α → StateM S Bool) (start stop : Nat) (s : Sequence α) :
    Inquiry S (Option Nat) :=
  s.byShape (fun items => Tree.checkedScan test items start stop)
    fun root => root.tree.checkedFind s.options test start stop

def checkedFindLastWithin (test : α → StateM S Bool) (start stop : Nat) (s : Sequence α) :
    Inquiry S (Option Nat) :=
  s.byShape (fun items => Tree.checkedScanBack test items start stop)
    fun root => root.tree.checkedFindLast s.options test start stop

def checkedFind (test : α → StateM S Bool) (start : Nat) (s : Sequence α) :
    Inquiry S (Option Nat) :=
  if start < s.length then s.checkedFindWithin test start s.length else return none

def checkedFindLast (test : α → StateM S Bool) (s : Sequence α) : Inquiry S (Option Nat) :=
  s.checkedFindLastWithin test 0 s.length

def checkedFindIn (test : α → StateM S Bool) (start stop : Nat) (s : Sequence α) :
    Inquiry S (Except Error (Option Nat)) :=
  s.inRange start stop (s.checkedFindWithin test start stop)

def checkedFindLastIn (test : α → StateM S Bool) (start stop : Nat) (s : Sequence α) :
    Inquiry S (Except Error (Option Nat)) :=
  s.inRange start stop (s.checkedFindLastWithin test start stop)

/-! ### Binary search -/

def checkedSearchWithin (order : α → Ordering) (start stop : Nat) (s : Sequence α) :
    Except Fault Location :=
  s.byShape
    (fun items => do
      let window ← Row.slice items start stop
      Bisect.relocate start (Bisect.halving (fun index => window[index]?.map order) 0 window.size))
    fun _ =>
      Bisect.checkedBetween (fun index => do return (← s.checkedGet? index).map order) start stop

def checkedSearch (order : α → Ordering) (s : Sequence α) : Except Fault Location :=
  s.checkedSearchWithin order 0 s.length

def checkedSearchIn (order : α → Ordering) (start stop : Nat) (s : Sequence α) :
    Except Fault (Except Error Location) :=
  s.inRange start stop (s.checkedSearchWithin order start stop)

/-! ### No fault -/

variable {s : Sequence α} {start stop : Nat}

theorem le_of_checkRange (accepted : s.checkRange start stop = .ok ()) :
    start ≤ stop ∧ stop ≤ s.length := by
  unfold checkRange at accepted
  split at accepted
  · assumption
  · exact nomatch accepted

/-- Only a range of the sequence has to be gone through without a fault. -/
theorem inRange_lift {step : Inquiry S (Option Nat)} {plain : StateM S (Option Nat)}
    (same : start ≤ stop → stop ≤ s.length → step = Inquiry.lift plain) :
    s.inRange start stop step = Inquiry.lift (match s.checkRange start stop with
      | .error error => pure (.error error)
      | .ok () => .ok <$> plain) := by
  unfold inRange
  cases range : s.checkRange start stop with
  | error error => rfl
  | ok _ =>
    obtain ⟨order, inside⟩ := le_of_checkRange range
    rw [same order inside]
    rfl

namespace Valid

/-- The run of storage has all elements, and so has a tree, which is packed. -/
theorem byShape_eq (valid : s.Valid) {τ : Type} {run : Array α → τ} {deep : Root α → τ}
    {answer : τ} (flat : s.isFlat = true → run s.toArray = answer)
    (tall : ∀ {level : Nat} {tree : Tree α level} {front : List (Buffer α)} {last : Buffer α},
      s.isFlat = false → tree.Packed s.options.segmentCapacity front last →
        tree.toArray = s.toArray → deep { level, tree } = answer) :
    s.byShape run deep = answer := by
  unfold byShape
  cases valid with
  | empty root =>
    have none : s.toArray = #[] := Array.ext' (toList_of_root_none root)
    rw [root]
    exact none ▸ flat (by simp [isFlat, flat?, root])
  | tree root packed total tail =>
    rename_i level tree front last
    have same : s.toArray = tree.toArray := Array.ext' (toList_of_root root)
    rw [root]
    cases level with
    | zero =>
      have single : s.isFlat = true := by
        unfold isFlat flat?
        rw [root]
        rfl
      rw [same] at flat
      exact flat single
    | succ level => exact tall (by simp [isFlat, flat?, root]) packed same.symm

theorem checkedFindWithin_eq (valid : s.Valid) (small : s.length < 2 ^ 64)
    (test : α → StateM S Bool) (order : start ≤ stop) (inside : stop ≤ s.length) :
    s.checkedFindWithin test start stop = Inquiry.lift (s.findWithin test start stop) := by
  have size : s.length = s.toArray.size := valid.length_eq
  rw [valid.findWithin_eq, Nat.min_eq_left (size ▸ inside)]
  refine valid.byShape_eq (fun _ => ?_) ?_
  · exact Tree.checkedScan_eq order (by omega) (by omega)
  · intro level tree front last _ packed same
    have few : tree.toList.length < 2 ^ 64 := by
      rwa [Tree.toList, same, Array.length_toList, ← size]
    rw [packed.checksScan few start stop (by omega) (by omega), same, Nat.min_eq_left (size ▸ inside)]

theorem checkedFindLastWithin_eq (valid : s.Valid) (small : s.length < 2 ^ 64)
    (test : α → StateM S Bool) (order : start ≤ stop) (inside : stop ≤ s.length) :
    s.checkedFindLastWithin test start stop = Inquiry.lift (s.findLastWithin test start stop) := by
  have size : s.length = s.toArray.size := valid.length_eq
  rw [valid.findLastWithin_eq, Nat.min_eq_left (size ▸ inside)]
  refine valid.byShape_eq (fun _ => ?_) ?_
  · exact Tree.checkedScanBack_eq order (by omega) (by omega)
  · intro level tree front last _ packed same
    have few : tree.toList.length < 2 ^ 64 := by
      rwa [Tree.toList, same, Array.length_toList, ← size]
    rw [packed.checksScanBack few start stop (by omega) (by omega), same, Nat.min_eq_left (size ▸ inside)]

theorem checkedFind_eq (valid : s.Valid) (small : s.length < 2 ^ 64) (test : α → StateM S Bool)
    (start : Nat) : s.checkedFind test start = Inquiry.lift (s.find test start) := by
  unfold checkedFind find
  split
  · rename_i inside
    exact valid.checkedFindWithin_eq small test (Nat.le_of_lt inside) (Nat.le_refl _)
  · rfl

theorem checkedFindLast_eq (valid : s.Valid) (small : s.length < 2 ^ 64)
    (test : α → StateM S Bool) : s.checkedFindLast test = Inquiry.lift (s.findLast test) :=
  valid.checkedFindLastWithin_eq small test (Nat.zero_le _) (Nat.le_refl _)

theorem checkedFindIn_eq (valid : s.Valid) (small : s.length < 2 ^ 64) (test : α → StateM S Bool)
    (start stop : Nat) :
    s.checkedFindIn test start stop = Inquiry.lift (s.findIn test start stop) :=
  inRange_lift (valid.checkedFindWithin_eq small test)

theorem checkedFindLastIn_eq (valid : s.Valid) (small : s.length < 2 ^ 64)
    (test : α → StateM S Bool) (start stop : Nat) :
    s.checkedFindLastIn test start stop = Inquiry.lift (s.findLastIn test start stop) :=
  inRange_lift (valid.checkedFindLastWithin_eq small test)

theorem checkedSearchWithin_eq (valid : s.Valid) (small : s.length < 2 ^ 64)
    (compare : α → Ordering) (order : start ≤ stop) (inside : stop ≤ s.length) :
    s.checkedSearchWithin compare start stop = .ok (s.searchWithin compare start stop) := by
  have size : s.length = s.toArray.size := valid.length_eq
  unfold searchWithin
  refine valid.byShape_eq (fun flat => ?_) fun deep _ _ => ?_
  · have window : (s.toArray.extract start stop).size = stop - start := by
      rw [Array.size_extract]
      omega
    have same (index : Nat) (bound : index < stop - start) :
        (s.get? (start + index)).map compare =
          (s.toArray.extract start stop)[index]?.map compare := by
      rw [valid.get?_eq, Array.getElem?_extract, if_pos (by omega)]
      simp [toList]
    have found : Bisect.relocate start _ = .ok (Bisect.halving (fun index =>
        (s.get? index).map compare) start _) := Bisect.relocate_halving same (by omega)
    rw [Nat.add_sub_cancel' order] at found
    rw [Row.slice_eq order (by omega), if_pos flat]
    dsimp only [bind, Except.bind]
    rw [window, found]
  · rw [if_neg (deep ▸ Bool.false_ne_true)]
    refine Bisect.checkedBetween_eq (fun index => ?_) (by omega)
    rw [checkedGet?_eq small]
    rfl

theorem checkedSearch_eq (valid : s.Valid) (small : s.length < 2 ^ 64) (compare : α → Ordering) :
    s.checkedSearch compare = .ok (s.search compare) :=
  valid.checkedSearchWithin_eq small compare (Nat.zero_le _) (Nat.le_refl _)

theorem checkedSearchIn_eq (valid : s.Valid) (small : s.length < 2 ^ 64) (compare : α → Ordering)
    (start stop : Nat) :
    s.checkedSearchIn compare start stop = .ok (s.searchIn compare start stop) := by
  unfold checkedSearchIn inRange searchIn
  cases range : s.checkRange start stop with
  | error error => rfl
  | ok _ =>
    obtain ⟨order, inside⟩ := le_of_checkRange range
    dsimp only
    rw [valid.checkedSearchWithin_eq small compare order inside]
    rfl

end Valid

end Sequence

end Segmented
