import Mathlib.Data.Nat.Log
import Segmented.Proofs.CheckedLocate
import Segmented.Proofs.Questions

/-! Binary search by a comparison that may keep a state: which elements it compares, what it answers
whatever their order, and what it answers when the smaller ones come first. -/

namespace Segmented

namespace Bisect

variable {S : Type}

/-! ### The searches with a comparison that keeps a state -/

/-- `between`, where each comparison may depend on the earlier ones. -/
def betweenBy (look : Nat → StateM S (Option Ordering)) (low high : Nat) : StateM S Location :=
  if low < high then do
    match ← look (low + (high - low) / 2) with
    | none => return .missing low
    | some .lt => betweenBy look (low + (high - low) / 2 + 1) high
    | some .gt => betweenBy look low (low + (high - low) / 2)
    | some .eq => return .found (low + (high - low) / 2)
  else pure (.missing low)
termination_by high - low

/-- `lastNotGreater`, where each comparison may depend on the earlier ones. -/
def lastNotGreaterBy (look : Nat → StateM S (Option Ordering)) (base size : Nat) : StateM S Nat :=
  if 1 < size then do
    let answer ← look (base + size / 2)
    lastNotGreaterBy look (if answer = some .gt then base else base + size / 2) (size - size / 2)
  else pure base
termination_by size

/-- What the search by halving answers when the last position left compares as given. -/
def settled (base : Nat) : Option Ordering → Location
  | some .eq => .found base
  | some .lt => .missing (base + 1)
  | _ => .missing base

/-- Halves a run until one position is left and answers by how that one compares. -/
def closeBy (look : Nat → StateM S (Option Ordering)) (base size : Nat) : StateM S Location := do
  let last ← lastNotGreaterBy look base size
  return settled last (← look last)

/-- `halving`, where each comparison may depend on the earlier ones. -/
def halvingBy (look : Nat → StateM S (Option Ordering)) (low high : Nat) : StateM S Location :=
  if low < high then closeBy look low (high - low) else pure (.missing low)

variable {look : Nat → StateM S (Option Ordering)} {order : Nat → Option Ordering}
  {state state' : S} {low high base size index : Nat}

theorem run_betweenBy {answer : Option Ordering} (wide : low < high)
    (asked : (look (low + (high - low) / 2)).run state = (answer, state')) :
    (betweenBy look low high).run state = StateT.run (match answer with
      | none => pure (.missing low)
      | some .lt => betweenBy look (low + (high - low) / 2 + 1) high
      | some .gt => betweenBy look low (low + (high - low) / 2)
      | some .eq => pure (.found (low + (high - low) / 2))) state' := by
  rw [betweenBy, if_pos wide, StateT.run_bind, asked]
  rfl

theorem run_lastNotGreaterBy {answer : Option Ordering} (several : 1 < size)
    (asked : (look (base + size / 2)).run state = (answer, state')) :
    (lastNotGreaterBy look base size).run state = (lastNotGreaterBy look
      (if answer = some .gt then base else base + size / 2) (size - size / 2)).run state' := by
  rw [lastNotGreaterBy, if_pos several, StateT.run_bind, asked]
  rfl

theorem run_closeBy {answer : Option Ordering} (several : 1 < size)
    (asked : (look (base + size / 2)).run state = (answer, state')) :
    (closeBy look base size).run state = (closeBy look
      (if answer = some .gt then base else base + size / 2) (size - size / 2)).run state' := by
  rw [closeBy, StateT.run_bind, run_lastNotGreaterBy several asked]
  rfl

theorem lastNotGreaterBy_of_le (single : size ≤ 1) :
    lastNotGreaterBy look base size = pure base := by
  rw [lastNotGreaterBy, if_neg (Nat.not_lt.mpr single)]

theorem halving_eq (wide : low < high) :
    halving order low high = settled (lastNotGreater order low (high - low))
      (order (lastNotGreater order low (high - low))) := by
  rw [halving, if_pos wide]
  rfl

/-! ### Comparisons that only look at the position -/

section Steady

variable (steady : ∀ index state, ((look index).run state).1 = order index)
include steady

theorem betweenBy_steady (low high : Nat) (state : S) :
    ((betweenBy look low high).run state).1 = between order low high := by
  induction size : high - low using Nat.strongRecOn generalizing low high state with
  | ind size ih =>
    rw [between]
    split
    · rename_i wide
      have answer := steady (low + (high - low) / 2) state
      cases asked : (look (low + (high - low) / 2)).run state with
      | mk answered state' =>
        rw [asked] at answer
        dsimp only at answer ⊢
        rw [run_betweenBy wide asked, ← answer]
        rcases answered with _ | _ | _ | _
        · rfl
        · exact ih _ (by omega) _ _ state' rfl
        · rfl
        · exact ih _ (by omega) _ _ state' rfl
    · rename_i narrow
      rw [betweenBy, if_neg narrow]
      rfl

theorem lastNotGreaterBy_steady (base size : Nat) (state : S) :
    ((lastNotGreaterBy look base size).run state).1 = lastNotGreater order base size := by
  induction size using Nat.strongRecOn generalizing base state with
  | ind size ih =>
    rw [lastNotGreater]
    split
    · rename_i several
      have answer := steady (base + size / 2) state
      cases asked : (look (base + size / 2)).run state with
      | mk answered state' =>
        rw [asked] at answer
        dsimp only at answer ⊢
        rw [run_lastNotGreaterBy several asked, ← answer]
        exact ih _ (by omega) _ state'
    · rename_i single
      rw [lastNotGreaterBy_of_le (Nat.not_lt.mp single)]
      rfl

theorem halvingBy_steady (low high : Nat) (state : S) :
    ((halvingBy look low high).run state).1 = halving order low high := by
  by_cases wide : low < high
  · rw [halving_eq wide, halvingBy, if_pos wide, closeBy, ← lastNotGreaterBy_steady steady,
      ← steady]
    rfl
  · rw [halving, halvingBy, if_neg wide, if_neg wide]
    rfl

end Steady

/-! ### The comparisons that are made -/

/-- What comes of a search of the range from `low` below `high` that compares the elements at the
listed positions in order: every one of them is in the range, and so is where the search ends. The
search ends with an element as soon as that compares as equal, and not otherwise. -/
structure Probes (look : Nat → StateM S (Option Ordering)) (low high : Nat) (state : S)
    (asked : List Nat) (answers : List Ordering) (outcome : Location × S) : Prop where
  run : (asked.mapM look).run state = (answers.map some, outcome.2)
  inside : ∀ index ∈ asked, low ≤ index ∧ index < high
  found : ∀ index, outcome.1 = .found index →
    asked.getLast? = some index ∧ answers.getLast? = some .eq
  missing : ∀ index, outcome.1 = .missing index → low ≤ index ∧ index ≤ high

theorem Probes.nothing (order : low ≤ high) (state : S) :
    Probes look low high state [] [] (.missing low, state) where
  run := rfl
  inside := nofun
  found := nofun
  missing := by
    rintro index ⟨⟩
    exact ⟨Nat.le_refl _, order⟩

theorem Probes.last {answer : Ordering} {place : Location} (inside : low ≤ index ∧ index < high)
    (asked : (look index).run state = (some answer, state'))
    (found : ∀ other, place = .found other → other = index ∧ answer = .eq)
    (missing : ∀ other, place = .missing other → low ≤ other ∧ other ≤ high) :
    Probes look low high state [index] [answer] (place, state') where
  run := by
    rw [run_mapM_cons, asked]
    rfl
  inside := by
    intro other member
    exact List.mem_singleton.mp member ▸ inside
  found := by
    intro other same
    obtain ⟨rfl, rfl⟩ := found other same
    exact ⟨rfl, rfl⟩
  missing := missing

/-- One more comparison before those of a smaller range. -/
theorem Probes.first {low' high' : Nat} {answer : Ordering} {asked : List Nat}
    {answers : List Ordering} {outcome : Location × S} (inside : low ≤ index ∧ index < high)
    (lower : low ≤ low') (upper : high' ≤ high)
    (here : (look index).run state = (some answer, state'))
    (rest : Probes look low' high' state' asked answers outcome) :
    Probes look low high state (index :: asked) (answer :: answers) outcome where
  run := by
    rw [run_mapM_cons, here]
    dsimp only
    rw [rest.run]
    rfl
  inside := by
    intro other member
    rcases List.mem_cons.mp member with rfl | later
    · exact inside
    · obtain ⟨above, below⟩ := rest.inside other later
      exact ⟨Nat.le_trans lower above, Nat.lt_of_lt_of_le below upper⟩
  found := by
    intro other same
    obtain ⟨position, answered⟩ := rest.found other same
    rw [List.getLast?_cons, List.getLast?_cons, position, answered]
    exact ⟨rfl, rfl⟩
  missing := by
    intro other same
    obtain ⟨above, below⟩ := rest.missing other same
    exact ⟨Nat.le_trans lower above, Nat.le_trans below upper⟩

/-- Every position of the range can be compared. -/
def Looks (look : Nat → StateM S (Option Ordering)) (low high : Nat) : Prop :=
  ∀ index, low ≤ index → index < high → ∀ state,
    ∃ answer state', (look index).run state = (some answer, state')

theorem Looks.mono {low' high' : Nat} (looks : Looks look low high) (lower : low ≤ low')
    (upper : high' ≤ high) : Looks look low' high' := fun index above below =>
  looks index (Nat.le_trans lower above) (Nat.lt_of_lt_of_le below upper)

/-- The range is at least halved by each comparison. -/
theorem probes_betweenBy {bits : Nat} (looks : Looks look low high) (order : low ≤ high)
    (small : high - low < 2 ^ bits) (state : S) :
    ∃ asked answers outcome, (betweenBy look low high).run state = outcome ∧
      Probes look low high state asked answers outcome ∧ asked.length ≤ bits := by
  induction bits generalizing low high state with
  | zero =>
    obtain rfl : low = high := by omega
    rw [betweenBy, if_neg (Nat.lt_irrefl _)]
    exact ⟨[], [], _, rfl, .nothing (Nat.le_refl _) state, Nat.le_refl _⟩
  | succ bits ih =>
    rw [Nat.pow_succ] at small
    by_cases wide : low < high
    · have inside : low ≤ low + (high - low) / 2 ∧ low + (high - low) / 2 < high := by omega
      obtain ⟨answer, state', here⟩ := looks _ inside.1 inside.2 state
      rw [run_betweenBy wide here]
      cases answer with
      | lt =>
        have lower : low ≤ low + (high - low) / 2 + 1 := by omega
        obtain ⟨asked, answers, outcome, run, probes, few⟩ :=
          ih (looks.mono lower (Nat.le_refl _)) (by omega) (by omega) state'
        exact ⟨_ :: asked, .lt :: answers, outcome, run,
          .first inside lower (Nat.le_refl _) here probes, Nat.succ_le_succ few⟩
      | gt =>
        have upper := Nat.le_of_lt inside.2
        obtain ⟨asked, answers, outcome, run, probes, few⟩ :=
          ih (looks.mono (Nat.le_refl _) upper) inside.1 (by omega) state'
        exact ⟨_ :: asked, .gt :: answers, outcome, run,
          .first inside (Nat.le_refl _) upper here probes, Nat.succ_le_succ few⟩
      | eq =>
        refine ⟨[_], [.eq], _, rfl, .last inside here ?_ nofun, Nat.succ_le_succ (Nat.zero_le _)⟩
        rintro other ⟨⟩
        exact ⟨rfl, rfl⟩
    · rw [betweenBy, if_neg wide]
      exact ⟨[], [], _, rfl, .nothing order state, Nat.zero_le _⟩

theorem probes_closeBy_one (looks : Looks look base (base + 1)) (state : S) :
    ∃ asked answers outcome, (closeBy look base 1).run state = outcome ∧
      Probes look base (base + 1) state asked answers outcome ∧ asked.length = 1 := by
  have inside : base ≤ base ∧ base < base + 1 := ⟨Nat.le_refl _, Nat.lt_succ_self _⟩
  obtain ⟨answer, state', here⟩ := looks base inside.1 inside.2 state
  refine ⟨[base], [answer], (settled base (some answer), state'), ?_, .last inside here ?_ ?_, rfl⟩
  · rw [closeBy, lastNotGreaterBy_of_le (Nat.le_refl _), pure_bind, StateT.run_bind, here]
    rfl
  · intro other same
    cases answer <;> cases same
    exact ⟨rfl, rfl⟩
  · intro other same
    cases answer <;> cases same <;> omega

/-- The run is halved, rounded up, by each comparison, and the position left is compared again. -/
theorem probes_closeBy {bits : Nat} (looks : Looks look base (base + size)) (positive : 0 < size)
    (small : size ≤ 2 ^ bits) (state : S) :
    ∃ asked answers outcome, (closeBy look base size).run state = outcome ∧
      Probes look base (base + size) state asked answers outcome ∧ asked.length ≤ bits + 1 := by
  induction bits generalizing base size state with
  | zero =>
    obtain rfl : size = 1 := by omega
    obtain ⟨asked, answers, outcome, run, probes, once⟩ := probes_closeBy_one looks state
    exact ⟨asked, answers, outcome, run, probes, Nat.le_of_eq once⟩
  | succ bits ih =>
    rw [Nat.pow_succ] at small
    by_cases several : 1 < size
    · have inside : base ≤ base + size / 2 ∧ base + size / 2 < base + size := by omega
      obtain ⟨answer, state', here⟩ := looks _ inside.1 inside.2 state
      rw [run_closeBy several here]
      split
      · have upper : base + (size - size / 2) ≤ base + size := by omega
        obtain ⟨asked, answers, outcome, run, probes, few⟩ :=
          ih (looks.mono (Nat.le_refl _) upper) (by omega) (by omega) state'
        exact ⟨_ :: asked, answer :: answers, outcome, run,
          .first inside (Nat.le_refl _) upper here probes, Nat.succ_le_succ few⟩
      · have upper : base + size / 2 + (size - size / 2) ≤ base + size := by omega
        obtain ⟨asked, answers, outcome, run, probes, few⟩ :=
          ih (looks.mono inside.1 upper) (by omega) (by omega) state'
        exact ⟨_ :: asked, answer :: answers, outcome, run,
          .first inside inside.1 upper here probes, Nat.succ_le_succ few⟩
    · obtain rfl : size = 1 := by omega
      obtain ⟨asked, answers, outcome, run, probes, once⟩ := probes_closeBy_one looks state
      exact ⟨asked, answers, outcome, run, probes, by omega⟩

theorem probes_halvingBy {bits : Nat} (looks : Looks look low high) (order : low ≤ high)
    (small : high - low ≤ 2 ^ bits) (state : S) :
    ∃ asked answers outcome, (halvingBy look low high).run state = outcome ∧
      Probes look low high state asked answers outcome ∧ asked.length ≤ bits + 1 := by
  rw [halvingBy]
  split
  · rename_i wide
    rw [← Nat.add_sub_cancel' order] at looks ⊢
    rw [Nat.add_sub_cancel_left]
    exact probes_closeBy looks (Nat.sub_pos_of_lt wide) small state
  · exact ⟨[], [], _, rfl, .nothing order state, Nat.zero_le _⟩

/-! ### Smaller positions first -/

/-- The positions of the range compare as less below `first`, as equal from there below `beyond`,
and as greater from there on. -/
structure Stepped (order : Nat → Option Ordering) (low first beyond high : Nat) : Prop where
  lower : low ≤ first
  middle : first ≤ beyond
  upper : beyond ≤ high
  answers : ∀ index, low ≤ index → index < high → order index =
    some (if index < first then .lt else if index < beyond then .eq else .gt)

theorem Stepped.answer (stepped : Stepped order low first beyond high) (above : low ≤ index)
    (below : index < high) :
    (order index = some .lt ∧ index < first) ∨
      (order index = some .eq ∧ first ≤ index ∧ index < beyond) ∨
      (order index = some .gt ∧ beyond ≤ index) := by
  have answer := stepped.answers index above below
  rcases Nat.lt_or_ge index first with less | most
  · exact .inl ⟨by rw [answer, if_pos less], less⟩
  · rw [if_neg (Nat.not_lt.mpr most)] at answer
    rcases Nat.lt_or_ge index beyond with equal | greater
    · exact .inr (.inl ⟨by rw [answer, if_pos equal], most, equal⟩)
    · exact .inr (.inr ⟨by rw [answer, if_neg (Nat.not_lt.mpr greater)], greater⟩)

theorem Stepped.above (stepped : Stepped order low first beyond high) {low' : Nat}
    (further : low ≤ low') (lower : low' ≤ first) : Stepped order low' first beyond high where
  lower := lower
  middle := stepped.middle
  upper := stepped.upper
  answers index above := stepped.answers index (Nat.le_trans further above)

theorem Stepped.below (stepped : Stepped order low first beyond high) {high' : Nat}
    (less : high' ≤ high) (upper : beyond ≤ high') : Stepped order low first beyond high' where
  lower := stepped.lower
  middle := stepped.middle
  upper := upper
  answers index above below := stepped.answers index above (Nat.lt_of_lt_of_le below less)

/-- The location is that of an element that compares as equal or, if there is none, where one
belongs. -/
def Settles (first beyond : Nat) : Location → Prop
  | .found index => first ≤ index ∧ index < beyond
  | .missing index => first = beyond ∧ index = first

theorem Settles.found_iff {place : Location} (settles : Settles first beyond place) :
    (∃ index, place = .found index) ↔ first ≠ beyond := by
  cases place with
  | found index =>
    have bounds : first ≤ index ∧ index < beyond := settles
    exact iff_of_true ⟨index, rfl⟩ (by omega)
  | missing index => exact iff_of_false nofun (not_not_intro settles.1)

theorem Settles.eq_missing {place : Location} (settles : Settles first first place) :
    place = .missing first := by
  cases place with
  | found index => exact absurd settles.2 (Nat.not_lt.mpr settles.1)
  | missing index => exact congrArg Location.missing settles.2

theorem Stepped.settles_between (stepped : Stepped order low first beyond high) :
    Settles first beyond (between order low high) := by
  induction size : high - low using Nat.strongRecOn generalizing low high with
  | ind size ih =>
    have lower := stepped.lower
    have middle := stepped.middle
    have upper := stepped.upper
    rw [between]
    split
    · dsimp only
      have inside : low ≤ low + (high - low) / 2 ∧ low + (high - low) / 2 < high := by omega
      rcases stepped.answer inside.1 inside.2 with
        ⟨answer, less⟩ | ⟨answer, most, equal⟩ | ⟨answer, greater⟩
      · rw [answer]
        exact ih _ (by omega) (stepped.above (by omega) less) rfl
      · rw [answer]
        exact ⟨most, equal⟩
      · rw [answer]
        exact ih _ (by omega) (stepped.below (Nat.le_of_lt inside.2) greater) rfl
    · exact ⟨by omega, by omega⟩

/-- Halving ends at the last position that is not greater, or at the first one if all are. -/
theorem lastNotGreater_eq (positive : 0 < size) (upper : beyond ≤ base + size)
    (greater : ∀ index, base ≤ index → index < base + size →
      (order index = some .gt ↔ beyond ≤ index)) :
    lastNotGreater order base size = max base (beyond - 1) := by
  induction size using Nat.strongRecOn generalizing base with
  | ind size ih =>
    rw [lastNotGreater]
    split
    · have middle := greater (base + size / 2) (by omega) (by omega)
      dsimp only
      split
      · rename_i past
        have past := middle.mp past
        exact ih _ (by omega) (by omega) (by omega) fun index above below =>
          greater index above (by omega)
      · rename_i within
        have within := mt middle.mpr within
        rw [ih _ (by omega) (by omega) (by omega) fun index above below =>
          greater index (by omega) (by omega)]
        omega
    · omega

theorem Stepped.settles_halving (stepped : Stepped order low first beyond high) :
    Settles first beyond (halving order low high) := by
  have lower := stepped.lower
  have middle := stepped.middle
  have upper := stepped.upper
  by_cases wide : low < high
  · have last : lastNotGreater order low (high - low) = max low (beyond - 1) := by
      apply lastNotGreater_eq (by omega) (by omega)
      intro index above below
      rcases stepped.answer above (by omega) with
        ⟨answer, less⟩ | ⟨answer, most, equal⟩ | ⟨answer, past⟩
      · simp only [answer, reduceCtorEq, Option.some.injEq, false_iff]
        omega
      · simp only [answer, reduceCtorEq, Option.some.injEq, false_iff]
        omega
      · simp only [answer, past]
    rw [halving_eq wide, last]
    rcases stepped.answer (Nat.le_max_left low (beyond - 1)) (by omega) with
      ⟨answer, less⟩ | ⟨answer, most, equal⟩ | ⟨answer, past⟩
    · rw [answer]
      exact ⟨by omega, by omega⟩
    · rw [answer]
      exact ⟨most, equal⟩
    · rw [answer]
      exact ⟨by omega, by omega⟩
  · rw [halving, if_neg wide]
    exact ⟨by omega, by omega⟩

end Bisect

namespace Sequence

variable {α S : Type} {s : Sequence α} {start stop : Nat}

/-! ### Sequences -/

/-- How the element at `index` compares, if there is one. -/
def compareAt (compare : α → StateM S Ordering) (s : Sequence α) (index : Nat) :
    StateM S (Option Ordering) :=
  match s.get? index with
  | none => pure none
  | some x => some <$> compare x

/-- `searchWithin`, where each comparison may depend on the earlier ones. -/
def searchWithinBy (compare : α → StateM S Ordering) (start stop : Nat) (s : Sequence α) :
    StateM S Location :=
  if s.isFlat then Bisect.halvingBy (s.compareAt compare) start stop
  else Bisect.betweenBy (s.compareAt compare) start stop

/-- `search`, where each comparison may depend on the earlier ones. -/
def searchBy (compare : α → StateM S Ordering) (s : Sequence α) : StateM S Location :=
  s.searchWithinBy compare 0 s.length

/-- `searchIn`, where each comparison may depend on the earlier ones. -/
def searchInBy (compare : α → StateM S Ordering) (start stop : Nat) (s : Sequence α) :
    StateM S (Except Error Location) :=
  match s.checkRange start stop with
  | .error error => pure (.error error)
  | .ok () => .ok <$> s.searchWithinBy compare start stop

/-- How an element compares depends on it alone. -/
def Steady (compare : α → StateM S Ordering) (order : α → Ordering) : Prop :=
  ∀ x state, ((compare x).run state).1 = order x

/-- The listed elements are so many that compare as less, then so many that compare as equal, and
then so many that compare as greater. -/
def Split (order : α → Ordering) (xs : List α) (less equal greater : Nat) : Prop :=
  xs.map order =
    List.replicate less .lt ++ (List.replicate equal .eq ++ List.replicate greater .gt)

theorem searchInBy_steady {compare : α → StateM S Ordering} {order : α → Ordering}
    (steady : Steady compare order) (start stop : Nat) (s : Sequence α) (state : S) :
    ((s.searchInBy compare start stop).run state).1 = s.searchIn order start stop := by
  have same : ∀ index state,
      ((s.compareAt compare index).run state).1 = (s.get? index).map order := by
    intro index state
    unfold compareAt
    cases s.get? index with
    | none => rfl
    | some x => exact congrArg some (steady x state)
  rw [searchInBy, searchIn]
  cases s.checkRange start stop with
  | error error => rfl
  | ok _ =>
    have within : ((s.searchWithinBy compare start stop).run state).1 =
        s.searchWithin order start stop := by
      unfold searchWithinBy searchWithin
      split
      · exact Bisect.halvingBy_steady same start stop state
      · exact Bisect.betweenBy_steady same start stop state
    exact congrArg Except.ok within

theorem Valid.looks (valid : s.Valid) (compare : α → StateM S Ordering) (inside : stop ≤ s.length) :
    Bisect.Looks (s.compareAt compare) start stop := by
  intro index above below state
  have length : s.length = s.toArray.size := valid.length_eq
  have here : s.get? index = some s.toArray[index] := by
    rw [valid.get?_eq, toList, Array.getElem?_toList]
    exact Array.getElem?_eq_getElem _
  rw [compareAt, here]
  exact ⟨_, _, rfl⟩

theorem Valid.probes_searchInBy (valid : s.Valid) (compare : α → StateM S Ordering)
    (order : start ≤ stop) (inside : stop ≤ s.length) (state : S) :
    ∃ asked answers place state',
      (s.searchInBy compare start stop).run state = (.ok place, state') ∧
      Bisect.Probes (s.compareAt compare) start stop state asked answers (place, state') ∧
      asked.length ≤ Nat.clog 2 (stop - start) + 1 := by
  have range : s.checkRange start stop = .ok () := if_pos ⟨order, inside⟩
  have looks : Bisect.Looks (s.compareAt compare) start stop := valid.looks compare inside
  have small : stop - start ≤ 2 ^ Nat.clog 2 (stop - start) := Nat.le_pow_clog (by decide) _
  have wide : stop - start < 2 ^ (Nat.clog 2 (stop - start) + 1) :=
    Nat.lt_of_le_of_lt small (Nat.pow_lt_pow_right (by decide) (Nat.lt_succ_self _))
  rw [searchInBy, range]
  dsimp only
  rw [StateT.run_map, searchWithinBy]
  split
  · obtain ⟨asked, answers, ⟨place, state'⟩, run, probes, few⟩ :=
      Bisect.probes_halvingBy looks order small state
    exact ⟨asked, answers, place, state', by rw [run]; rfl, probes, few⟩
  · obtain ⟨asked, answers, ⟨place, state'⟩, run, probes, few⟩ :=
      Bisect.probes_betweenBy looks order wide state
    exact ⟨asked, answers, place, state', by rw [run]; rfl, probes, few⟩

theorem Split.length_eq {order : α → Ordering} {xs : List α} {less equal greater : Nat}
    (split : Split order xs less equal greater) : less + (equal + greater) = xs.length := by
  have total := congrArg List.length split
  simpa using total.symm

theorem Split.exists_iff {order : α → Ordering} {xs : List α} {less equal greater : Nat}
    (split : Split order xs less equal greater) : (∃ x ∈ xs, order x = .eq) ↔ equal ≠ 0 := by
  have member : (∃ x ∈ xs, order x = .eq) ↔ Ordering.eq ∈ xs.map order := List.mem_map.symm
  rw [member, split]
  simp [List.mem_replicate]

theorem Split.insertIdx {order : α → Ordering} {xs : List α} {less greater : Nat} {x : α}
    (split : Split order xs less 0 greater) (same : order x = .eq) :
    Split order (xs.insertIdx less x) less 1 greater := by
  have after := insertIdx_append_right (List.replicate less Ordering.lt)
    (List.replicate greater Ordering.gt) 0 .eq
  rw [List.length_replicate] at after
  rw [Split, List.map_insertIdx, split, same]
  exact after

theorem length_slice (order : start ≤ stop) (inside : stop ≤ s.toList.length) :
    (s.slice start stop).length = stop - start := by
  rw [slice, List.length_take, List.length_drop]
  omega

theorem Valid.stepped (valid : s.Valid) (upward : start ≤ stop) (inside : stop ≤ s.length)
    {order : α → Ordering} {less equal greater : Nat}
    (split : Split order (s.slice start stop) less equal greater) :
    Bisect.Stepped (fun index => (s.get? index).map order) start (start + less)
      (start + less + equal) stop := by
  have total := split.length_eq
  rw [length_slice upward (valid.length_eq ▸ inside)] at total
  refine ⟨Nat.le_add_right .., Nat.le_add_right .., by omega, ?_⟩
  intro index above below
  have here : s.get? index = (s.slice start stop)[index - start]? := by
    rw [valid.get?_eq, slice, List.getElem?_take_of_lt (by omega), List.getElem?_drop,
      Nat.add_sub_cancel' above]
  rw [here, ← List.getElem?_map, split]
  rcases Nat.lt_or_ge index (start + less) with before | after
  · rw [if_pos before, List.getElem?_append_left (by rw [List.length_replicate]; omega),
      List.getElem?_replicate_of_lt (by omega)]
  · rw [if_neg (by omega), List.getElem?_append_right (by rw [List.length_replicate]; omega),
      List.length_replicate]
    split_ifs with here
    · rw [List.getElem?_append_left (by rw [List.length_replicate]; omega),
        List.getElem?_replicate_of_lt (by omega)]
    · rw [List.getElem?_append_right (by rw [List.length_replicate]; omega),
        List.length_replicate, List.getElem?_replicate_of_lt (by omega)]

theorem Valid.settles_searchWithin (valid : s.Valid) (upward : start ≤ stop)
    (inside : stop ≤ s.length) {order : α → Ordering} {less equal greater : Nat}
    (split : Split order (s.slice start stop) less equal greater) :
    Bisect.Settles (start + less) (start + less + equal) (s.searchWithin order start stop) := by
  have stepped := valid.stepped upward inside split
  unfold searchWithin
  split_ifs
  · exact stepped.settles_halving
  · exact stepped.settles_between

theorem searchIn_of_le (order : α → Ordering) (upward : start ≤ stop) (inside : stop ≤ s.length) :
    s.searchIn order start stop = .ok (s.searchWithin order start stop) := by
  rw [searchIn, checkRange, if_pos ⟨upward, inside⟩]

theorem searchBy_eq (compare : α → StateM S Ordering) :
    (.ok <$> s.searchBy compare : StateM S (Except Error Location)) =
      s.searchInBy compare 0 s.length := by
  rw [searchBy, searchInBy, checkRange, if_pos ⟨Nat.zero_le _, Nat.le_refl _⟩]

theorem searchBy_steady {compare : α → StateM S Ordering} {order : α → Ordering}
    (steady : Steady compare order) (s : Sequence α) (state : S) :
    ((s.searchBy compare).run state).1 = s.search order := by
  have same := searchInBy_steady steady 0 s.length s state
  rw [← searchBy_eq, searchIn_of_le order (Nat.zero_le _) (Nat.le_refl _)] at same
  exact Except.ok.inj same

variable {σ : Type} [Allocator σ α] [LawfulAllocator σ α]

/-- What is inserted into a range makes it one longer. -/
theorem Valid.slice_insert (valid : s.Valid) (upward : start ≤ stop) (inside : stop ≤ s.length)
    {offset : Nat} (within : offset ≤ stop - start) (x : α) {depot : Depot σ}
    (sound : LawfulAllocator.Sound depot.allocator) :
    ((s.insert (start + offset) x).run depot).1.slice start (stop + 1) =
      (s.slice start stop).insertIdx offset x := by
  have reached : start + offset ≤ s.length := by omega
  have inserted := (ensures_insert valid reached x depot sound).2
  have inside : stop ≤ s.toList.length := valid.length_eq ▸ inside
  have length := length_slice upward inside
  have before : (s.toList.take start).length = start := by
    rw [List.length_take]
    omega
  have parts : s.toList = s.toList.take start ++
      (s.slice start stop ++ (s.toList.drop start).drop (stop - start)) := by
    rw [slice, List.take_append_drop, List.take_append_drop]
  have longer : ((s.slice start stop).insertIdx offset x).length = stop + 1 - start := by
    rw [List.length_insertIdx_of_le_length (length ▸ within), length]
    omega
  have elements := insertIdx_append_right (s.toList.take start)
    (s.slice start stop ++ (s.toList.drop start).drop (stop - start)) offset x
  rw [← parts, before, insertIdx_append_left (length ▸ within)] at elements
  rw [slice, inserted.elements, elements, List.drop_left' before, List.take_left' longer]

variable [BEq α] [Inhabited α]

/-- A binary search refuses a range that is none without comparing anything. Of any other it
compares positions of the range only, logarithmically many, and answers a position of the range
whose element has just compared as equal, or one from its start to its end. When how an element
compares does not depend on what was compared before, and the elements of the range are split into
those less, those equal and those greater, it finds an equal one if there is one; else it answers
where the greater ones begin, and the range is split in the same way after an equal element has been
inserted there. This is so in one segment and in several, and a comparison that keeps no state, such
as one with a value or of keys, makes the search the plain one. -/
theorem Reachable.binary_search (reachable : s.Reachable) (compare : α → StateM S Ordering)
    (start stop : Nat) (depot : Depot σ) (sound : LawfulAllocator.Sound depot.allocator) :
    (stop < start ∨ s.length < stop →
      s.searchInBy compare start stop = pure (.error (.range start stop s.length))) ∧
    (start ≤ stop → stop ≤ s.length → ∀ state, ∃ asked answers place state',
      (s.searchInBy compare start stop).run state = (.ok place, state') ∧
      Bisect.Probes (s.compareAt compare) start stop state asked answers (place, state') ∧
      asked.length ≤ Nat.clog 2 (stop - start) + 1 ∧
      ∀ order less equal greater, Steady compare order →
        Split order (s.slice start stop) less equal greater →
        ((∃ index, place = .found index) ↔ ∃ x ∈ s.slice start stop, order x = .eq) ∧
        ((∀ x ∈ s.slice start stop, order x ≠ .eq) →
          place = .missing (start + less) ∧ ∀ x, order x = .eq →
            Split order (((s.insert (start + less) x).run depot).1.slice start (stop + 1))
              less 1 greater)) ∧
    (.ok <$> s.searchBy compare : StateM S (Except Error Location)) =
      s.searchInBy compare 0 s.length ∧
    ∀ order, Steady compare order → ∀ state,
      ((s.searchBy compare).run state).1 = s.search order ∧
      ((s.searchInBy compare start stop).run state).1 = s.searchIn order start stop := by
  have valid := reachable.valid
  refine ⟨?_, ?_, searchBy_eq compare, fun order steady state => ⟨?_, ?_⟩⟩
  · intro invalid
    rw [searchInBy, checkRange, if_neg (by omega)]
  · intro upward inside state
    obtain ⟨asked, answers, place, state', run, probes, few⟩ :=
      valid.probes_searchInBy compare upward inside state
    refine ⟨asked, answers, place, state', run, probes, few, ?_⟩
    intro order less equal greater steady split
    have settles := valid.settles_searchWithin upward inside split
    have same := searchInBy_steady steady start stop s state
    rw [run, searchIn_of_le order upward inside] at same
    rw [← Except.ok.inj same] at settles
    constructor
    · rw [settles.found_iff, split.exists_iff]
      omega
    · intro none
      obtain rfl : equal = 0 := by
        by_contra some
        obtain ⟨x, member, equal⟩ := split.exists_iff.mpr some
        exact none x member equal
      have total := split.length_eq
      rw [length_slice upward (valid.length_eq ▸ inside)] at total
      refine ⟨settles.eq_missing, fun x equal => ?_⟩
      rw [valid.slice_insert upward inside (by omega) x sound]
      exact split.insertIdx equal
  · exact searchBy_steady steady s state
  · exact searchInBy_steady steady start stop s state

/-- A search of forty elements in three segments for one that is not among them, by a comparison
that remembers what it compared. -/
theorem binary_search_missing :
    let s : Sequence Nat := onHeap [.extend (List.range 24 ++ List.range' 25 16)]
    let order : Nat → Ordering := fun x => compare x 24
    let record : Nat → StateM (Array Nat) Ordering := fun x asked => (order x, asked.push x)
    let depot : Depot (Heap Nat) := { allocator := ⟨⟩ }
    s.segmentCount = 3 ∧ ∃ compared : Array Nat,
      (s.searchInBy record 5 35).run #[] = (.ok (.missing 24), compared) ∧
      Split order (((s.insert 24 24).run depot).1.slice 5 36) 19 1 11 := by
  intro s order record depot
  obtain ⟨-, searches, -⟩ :=
    (reachable_onHeap _).binary_search (s := s) record 5 35 depot trivial
  obtain ⟨asked, answers, place, compared, run, probes, few, places⟩ :=
    searches (by decide) (by decide +kernel) #[]
  have split : Split order (s.slice 5 35) 19 0 11 := by
    unfold Split
    decide +kernel
  obtain ⟨rfl, inserted⟩ :=
    (places order 19 0 11 (fun _ _ => rfl) split).2 (by decide +kernel)
  exact ⟨by decide +kernel, compared, run, inserted 24 rfl⟩

end Sequence

end Segmented
