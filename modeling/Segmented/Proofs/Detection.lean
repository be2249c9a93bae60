import Segmented.Proofs.Versions
import Segmented.Proofs.WellFormed
import Segmented.Traversal.Walk

/-! Which changes of a sequence a cursor notices. It notices that the version has moved, and the
version has sixteen bits: a call that moves it all the way round, and a disposal at the version that
disposal sets, are the ones that it does not notice. -/

namespace Segmented

variable {α : Type}

namespace Cursor

variable {s s' : Sequence α} {cursor : Cursor}

/-- The cursor was made from the sequence as it is, or has just been advanced over it. -/
inductive Tracks (s : Sequence α) : Cursor → Prop
  | made : Tracks s s.cursor
  | advanced {cursor : Cursor} {x : Option α} (answered : (cursor.advance s).1 = .ok x) :
      Tracks s (cursor.advance s).2

theorem advance_of_ne (moved : s.version ≠ cursor.version) :
    cursor.advance s = (.error .modified, cursor) := if_pos moved

theorem advance_of_eq (same : s.version = cursor.version) :
    (cursor.advance s).1 = .ok (s.get? cursor.position) := by
  unfold advance
  rw [if_neg (not_not_intro same)]
  cases s.get? cursor.position <;> rfl

theorem version_advance (s : Sequence α) (cursor : Cursor) :
    (cursor.advance s).2.version = cursor.version := by
  unfold advance
  split
  · rfl
  · split <;> rfl

theorem Tracks.version (tracks : Tracks s cursor) : cursor.version = s.version := by
  cases tracks with
  | made => rfl
  | advanced answered =>
    rename_i cursor x
    by_cases same : s.version = cursor.version
    · rw [version_advance, same]
    · rw [advance_of_ne same] at answered
      cases answered

/-- The cursor after it has been advanced `count` times over a sequence. -/
def after (s : Sequence α) (cursor : Cursor) (count : Nat) : Cursor :=
  (fun cursor => (cursor.advance s).2)^[count] cursor

/-- However often it is advanced, the cursor keeps its version. -/
theorem version_after (s : Sequence α) (cursor : Cursor) (count : Nat) :
    (cursor.after s count).version = cursor.version := by
  induction count generalizing cursor with
  | zero => rfl
  | succ count ih => exact (ih _).trans (version_advance s cursor)

/-- Every advance is refused, now and later, once the version has moved; and only then. -/
theorem refused_iff : (∀ count, ((cursor.after s count).advance s).1 = .error .modified) ↔
    s.version ≠ cursor.version := by
  constructor
  · intro refused same
    cases (advance_of_eq same).symm.trans (refused 0)
  · intro moved count
    rw [advance_of_ne (version_after s cursor count ▸ moved)]

end Cursor

open Sequence (Valid)

theorem Sequence.Moved.version_eq_iff {s s' : Sequence α} {count : Nat} (moved : s.Moved count s') :
    s'.version = s.version ↔ 65536 ∣ count := by
  rw [moved, UInt16.add_eq_left, ← UInt16.toNat_inj, UInt16.toNat_ofNat']
  exact Nat.dvd_iff_mod_eq_zero.symm

namespace Edit

variable [BEq α] [Inhabited α] {edit : Edit α} {s : Sequence α}

/-- The call puts the elements into another order. -/
def Arranges : Edit α → Prop
  | reverse | sort _ | sortUnstable _ => True
  | _ => False

/-- The call has changed the length, or the order as a whole, or it has ended the life of the
sequence. -/
inductive Restructures (s : Sequence α) (after : Except Failure (Reply α) × Sequence α) :
    Edit α → Prop
  | length {edit : Edit α} (changed : after.2.length ≠ s.length) : Restructures s after edit
  | order {edit : Edit α} (arranges : edit.Arranges) {reply : Reply α}
      (accepted : after.1 = .ok reply) : Restructures s after edit
  | disposal (live : s.disposed = false) : Restructures s after dispose

/-- The call leaves the version as it was, though it has changed the sequence: its steps go all the
way round, or the sequence already had the version that disposal sets. -/
def ComesRound (s s' : Sequence α) : Edit α → Prop
  | extend xs => 65536 ∣ xs.length
  | removeAll _ | removeIf _ | retain _ => s.isFlat = false ∧ 65536 ∣ s.length - s'.length
  | dispose => s.version = 65535
  | _ => False

/-- The call stores elements in the places of others. -/
def InPlace : Edit α → Prop
  | set .. | replace .. | replaceLast _ | assign .. | replaceFlat .. | exchange .. | copyFrom .. =>
    True
  | _ => False

theorem length_onList_of_inPlace (inPlace : edit.InPlace) (xs : List α) :
    (edit.onList xs).2.length = xs.length := by
  cases edit
  case set index x =>
    rw [onList]
    split <;> simp
  case replace | replaceLast => exact List.length_set
  case replaceFlat => rfl
  case assign index x =>
    rw [onList]
    split <;> simp
  case exchange first second =>
    rw [onList]
    split <;> simp
  case copyFrom source start index count =>
    rw [onList]
    split
    · rfl
    · split
      · rfl
      · simp
        omega
  all_goals exact inPlace.elim

theorem length_onList_of_inBulk (bulk : edit.InBulk) (xs : List α) :
    (edit.onList xs).2.length ≤ xs.length := by
  cases edit
  case removeAll x => exact List.length_filter_le ..
  case removeIf test => exact (Sequence.sublist_sift ..).length_le
  case retain test => exact (Sequence.sublist_sift ..).length_le
  all_goals exact bulk.elim

/-- The steps of a call that changes the length or the order go all the way round just in case the
call comes round. -/
theorem dvd_steps_iff {s' : Sequence α} (lives : edit ≠ dispose)
    (before : s.length = s.toList.length) (after : s'.length = (edit.onList s.toList).2.length)
    (restructures : s'.length ≠ s.length ∨ edit.Arranges) :
    65536 ∣ edit.steps s.isFlat s.toList ↔ edit.ComesRound s s' := by
  cases edit
  case dispose => exact absurd rfl lives
  case push | extend | reverse | sort | sortUnstable => simp [steps, ComesRound]
  case set | replace | replaceLast | assign | replaceFlat | exchange | copyFrom =>
    have kept := after.trans ((length_onList_of_inPlace (by trivial) s.toList).trans before.symm)
    exact absurd kept (restructures.resolve_right id)
  case removeAll | removeIf | retain =>
    have changed := restructures.resolve_right id
    have fewer : s'.length ≤ s.length := by
      rw [after, before]
      exact length_onList_of_inBulk (by trivial) s.toList
    have some : 1 ≤ s.length - s'.length := Nat.sub_pos_of_lt (Nat.lt_of_le_of_ne fewer changed)
    rw [steps_of_inBulk (by trivial), ← after, ← before]
    cases flat : s.isFlat with
    | true => simp [Sequence.bulkSteps, Nat.min_eq_right some, ComesRound, flat]
    | false => simp [Sequence.bulkSteps, ComesRound, flat]
  all_goals
    have changed := restructures.resolve_right id
    rw [after, before] at changed
    simp [steps, Sequence.lengthStep, changed, ComesRound]

variable {σ : Type} [Allocator σ α] [LawfulAllocator σ α]

theorem length_perform (valid : s.Valid) (lives : edit ≠ dispose)
    (allowed : edit.violation? s = none) (depot : Depot σ)
    (sound : LawfulAllocator.Sound depot.allocator) :
    ((edit.perform s).run depot).1.2.length = (edit.onList s.toList).2.length := by
  by_cases listed : edit.OnLists
  · obtain ⟨-, -, follows⟩ := ensures_perform valid listed allowed depot sound
    rw [follows.valid.length_eq, follows.elements]
  · cases edit with
    | dispose => exact absurd rfl lives
    | replaceFlat index x =>
      simp only [perform]
      split
      · obtain ⟨-, follows⟩ := Sequence.follows_set valid index x
        exact follows.valid.length_eq.trans (follows.elements ▸ List.length_set)
      · exact valid.length_eq
    | sortUnstable order =>
      obtain ⟨-, sorted, permuted, follows⟩ :=
        Sequence.ensures_sortUnstable valid order depot sound
      exact follows.valid.length_eq.trans (follows.elements ▸ permuted.length_eq)
    | _ => exact absurd trivial listed

omit [LawfulAllocator σ α] [BEq α] [Inhabited α] in
theorem dispose_of_disposed (disposed : s.disposed = true) :
    (s.dispose : Depot.Step σ (Sequence α)) = pure s := by
  unfold Sequence.dispose
  rw [disposed]
  rfl

omit [BEq α] [Inhabited α] in
theorem violation?_eq_none (accepted : edit.refusal? s = none) : edit.violation? s = none := by
  unfold refusal? at accepted
  split at accepted
  · cases accepted
  · exact accepted

omit [LawfulAllocator σ α] in
theorem run_apply (accepted : edit.refusal? s = none) (depot : Depot σ) :
    ((edit.apply s).run depot).1.2 = ((edit.perform s).run depot).1.2 := by
  unfold apply
  rw [accepted]
  rfl

omit [LawfulAllocator σ α] in
/-- A refused call restructures nothing. -/
theorem Restructures.refusal_eq_none {depot : Depot σ}
    (restructures : edit.Restructures s ((edit.apply s).run depot).1) :
    edit.refusal? s = none := by
  cases refused : edit.refusal? s with
  | none => rfl
  | some failure =>
    have same : ((edit.apply s).run depot).1 = (.error failure, s) := by
      unfold apply
      rw [refused]
      rfl
    rw [same] at restructures
    cases restructures with
    | length changed => exact absurd rfl changed
    | order arranges accepted => cases accepted
    | disposal => simp [refusal?, needsLive, violation?] at refused

omit [LawfulAllocator σ α] in
/-- Disposal restructures nothing when the sequence has been disposed of. -/
theorem Restructures.live {depot : Depot σ}
    (restructures : dispose.Restructures s ((dispose.apply s).run depot).1) :
    s.disposed = false := by
  have performed := run_apply restructures.refusal_eq_none depot
  cases restructures with
  | length changed =>
    rw [performed] at changed
    apply Bool.eq_false_iff.mpr
    intro disposed
    apply changed
    exact congrArg (fun step => (step.run depot).1.length) (dispose_of_disposed disposed)
  | order arranges => exact arranges.elim
  | disposal live => exact live

/-- The version is where it was, after a call that restructures a valid sequence, just in case the
call comes round. -/
theorem version_apply_eq_iff (valid : s.Valid) (depot : Depot σ)
    (sound : LawfulAllocator.Sound depot.allocator)
    (restructures : edit.Restructures s ((edit.apply s).run depot).1) :
    ((edit.apply s).run depot).1.2.version = s.version ↔
      edit.ComesRound s ((edit.apply s).run depot).1.2 := by
  have accepted := restructures.refusal_eq_none
  have performed := run_apply accepted depot
  by_cases ends : edit = dispose
  · subst ends
    have ended : (s.dispose.run depot).1.version = if s.disposed then s.version else 65535 :=
      Sequence.returns_dispose s depot
    rw [restructures.live] at ended
    rw [performed]
    exact ended ▸ eq_comm
  · have allowed := violation?_eq_none accepted
    have moved := moved_perform valid ends allowed depot sound
    have length := length_perform valid ends allowed depot sound
    rw [← performed] at moved length
    rw [moved.version_eq_iff]
    apply dvd_steps_iff ends valid.length_eq length
    cases restructures with
    | length changed => exact .inl changed
    | order arranges => exact .inr arranges
    | disposal => exact absurd rfl ends

end Edit

namespace Sequence

/-- A single segment holds at most as many elements as a segment may. -/
theorem Valid.length_le_of_isFlat {s : Sequence α} (valid : s.Valid) (flat : s.isFlat = true) :
    s.length ≤ s.options.segmentCapacity := by
  cases valid with
  | empty root zero =>
    rw [zero]
    exact Nat.zero_le _
  | tree root packed total tail =>
    rename_i level tree front last
    cases level with
    | succ level => simp [isFlat, flat?, root] at flat
    | zero =>
      obtain ⟨rfl, rfl⟩ := Tree.eq_of_row_segment packed.parts
      rw [total]
      exact packed.filled.bounded

variable [BEq α] [Inhabited α]

open Cursor (Tracks)

/-- A cursor that was made from a sequence, or has just been advanced over it, is refused from then
on once a call has changed the length or the order or has ended the life of the sequence, unless
that call comes round to the same version. -/
theorem Reachable.refused_iff_not_comesRound {σ : Type} [Allocator σ α] [LawfulAllocator σ α]
    {s : Sequence α} (reachable : s.Reachable) {cursor : Cursor} (tracks : Tracks s cursor)
    {edit : Edit α} (depot : Depot σ) (sound : LawfulAllocator.Sound depot.allocator)
    (restructures : edit.Restructures s ((edit.apply s).run depot).1) :
    let s' := ((edit.apply s).run depot).1.2
    (∀ count, ((cursor.after s' count).advance s').1 = .error .modified) ↔
      ¬edit.ComesRound s s' := by
  intro s'
  rw [Cursor.refused_iff, tracks.version, Ne,
    Edit.version_apply_eq_iff reachable.valid depot sound restructures]

/-- A cursor is refused at once and on a later attempt after a push. -/
theorem refused_after_push :
    let s : Sequence Nat := onHeap [.push 7]
    let s' := (((Edit.push 8).apply s).run ({ allocator := ⟨⟩ } : Depot (Heap Nat))).1.2
    (s.cursor.advance s').1 = .error .modified ∧
      ((s.cursor.after s' 3).advance s').1 = .error .modified :=
  have refused := (Reachable.refused_iff_not_comesRound (reachable_onHeap _) .made _ trivial
    (.length (by decide +kernel))).mpr id
  ⟨refused 0, refused 3⟩

/-- A change of the length after which a cursor goes on as if nothing had happened. -/
def Unnoticed (s : Sequence Nat) (edit : Edit Nat) : Prop :=
  let s' := ((edit.apply s).run ({ allocator := ⟨⟩ } : Depot (Heap Nat))).1.2
  s'.length ≠ s.length ∧ (s.cursor.advance s').1 = .ok (s'.get? 0)

theorem unnoticed_of_comesRound {s : Sequence Nat} (valid : s.Valid) {edit : Edit Nat} :
    let s' := ((edit.apply s).run ({ allocator := ⟨⟩ } : Depot (Heap Nat))).1.2
    s'.length ≠ s.length → edit.ComesRound s s' → s.Unnoticed edit := by
  intro s' changed round
  have same := (edit.version_apply_eq_iff valid _ trivial (.length changed)).mpr round
  exact ⟨changed, Cursor.advance_of_eq same⟩

def zeros (count : Nat) : Sequence Nat := onHeap [.extend (List.replicate count 0)]

theorem follows_zeros (count : Nat) :
    (Sequence.withCapacity 0 { segmentCapacity := 16 }).Follows (List.replicate count 0)
      (zeros count) :=
  have listed : Edit.OnLists (.extend (List.replicate count 0)) := trivial
  (Edit.ensures_apply_onList (valid_empty _ _) rfl listed _ trivial).2.2

theorem length_zeros (count : Nat) : (zeros count).length = count := by
  rw [(follows_zeros count).valid.length_eq, (follows_zeros count).elements,
    List.length_replicate]

theorem version_zeros (count : Nat) : (zeros count).version = .ofNat count := by
  have lives : Edit.extend (List.replicate count 0) ≠ .dispose := nofun
  have moved : (Sequence.withCapacity 0 { segmentCapacity := 16 }).Moved
      (List.replicate count 0).length (zeros count) :=
    Edit.moved_apply (valid_empty _ _) rfl lives _ trivial
  rw [moved, List.length_replicate]
  exact UInt16.zero_add _

theorem unnoticed_dispose {count : Nat} (some : count ≠ 0) (last : UInt16.ofNat count = 65535) :
    (zeros count).Unnoticed .dispose := by
  have follows := follows_zeros count
  apply unnoticed_of_comesRound follows.valid
  · obtain ⟨-, emptied⟩ := ensures_dispose follows.valid
      ({ allocator := ⟨⟩ } : Depot (Heap Nat)) trivial
    rw [follows.disposed] at emptied
    rw [Edit.run_apply (by simp [Edit.refusal?, Edit.needsLive, Edit.violation?]), length_zeros]
    exact fun same => some (same.symm.trans
      (emptied.valid.length_eq.trans (congrArg List.length emptied.elements)))
  · exact (version_zeros count).trans last

theorem unnoticed_extend {count : Nat} (some : count ≠ 0) (whole : 65536 ∣ count) :
    (zeros 0).Unnoticed (.extend (List.replicate count 0)) := by
  have follows := follows_zeros 0
  have listed : Edit.OnLists (.extend (List.replicate count 0)) := trivial
  obtain ⟨-, -, grown⟩ := Edit.ensures_apply_onList follows.valid follows.disposed listed
    ({ allocator := ⟨⟩ } : Depot (Heap Nat)) trivial
  apply unnoticed_of_comesRound follows.valid
  · rw [grown.valid.length_eq, grown.elements, follows.elements, length_zeros]
    simpa [Edit.onList] using some
  · simpa [Edit.ComesRound] using whole

theorem unnoticed_removeAll {count : Nat} (deep : 16 < count) (whole : 65536 ∣ count) :
    (zeros count).Unnoticed (.removeAll 0) := by
  have follows := follows_zeros count
  have listed : Edit.OnLists (.removeAll 0) := trivial
  obtain ⟨-, -, emptied⟩ := Edit.ensures_apply_onList follows.valid follows.disposed listed
    ({ allocator := ⟨⟩ } : Depot (Heap Nat)) trivial
  have none : (((Edit.removeAll 0).apply (zeros count)).run
      ({ allocator := ⟨⟩ } : Depot (Heap Nat))).1.2.length = 0 := by
    rw [emptied.valid.length_eq, emptied.elements, follows.elements]
    simp [Edit.onList]
  have length := length_zeros count
  apply unnoticed_of_comesRound follows.valid
  · omega
  · constructor
    · refine Bool.eq_false_iff.mpr fun flat => ?_
      have bounded := follows.valid.length_le_of_isFlat flat
      rw [follows.options, length] at bounded
      exact absurd bounded (Nat.not_le.mpr deep)
    · rwa [none, length]

/-- The three calls that come round: the disposal of a sequence at the last version, and 65536
elements that come or that go one by one. -/
theorem unnoticed_changes :
    (zeros 65535).Reachable ∧ (zeros 65535).Unnoticed .dispose ∧
      (zeros 0).Reachable ∧ (zeros 0).Unnoticed (.extend (List.replicate 65536 0)) ∧
      (zeros 65536).Reachable ∧ (zeros 65536).Unnoticed (.removeAll 0) := by
  refine ⟨reachable_onHeap _, ?_, reachable_onHeap _, ?_, reachable_onHeap _, ?_⟩
  · exact unnoticed_dispose (by decide) (by decide)
  · exact unnoticed_extend (by decide) (by decide)
  · exact unnoticed_removeAll (by decide) (by decide)

end Sequence

end Segmented
