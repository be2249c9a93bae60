import Segmented.Proofs.Reading
import Segmented.Proofs.TreeStep
import Segmented.Sequence.Splice
import Segmented.Sequence.Resize

/-! What the operations that change the length of a sequence do to the list of its elements, and
that they account for its storage. -/

namespace Segmented.Sequence

variable {σ α : Type}

/-- The second sequence is valid, holds the listed elements, and has the options and the state of
disposal of the first. -/
structure Follows (s : Sequence α) (xs : List α) (s' : Sequence α) : Prop where
  valid : s'.Valid
  elements : s'.toList = xs
  options : s'.options = s.options
  disposed : s'.disposed = s.disposed

variable {s : Sequence α}

theorem Follows.refl (valid : s.Valid) : s.Follows s.toList s := ⟨valid, rfl, rfl, rfl⟩

theorem Follows.trans {s' s'' : Sequence α} {xs ys : List α} (first : s.Follows xs s')
    (second : s'.Follows ys s'') : s.Follows ys s'' where
  valid := second.valid
  elements := second.elements
  options := second.options.trans first.options
  disposed := second.disposed.trans first.disposed

/-- A packed tree of the right length whose tail has been looked up again. -/
theorem follows_refreshTail {t : Sequence α} {xs : List α} {root : Root α}
    (here : t.root = some root)
    (packed : ∃ front last, root.tree.Packed s.options.segmentCapacity front last)
    (elements : root.tree.toList = xs) (length : t.length = xs.length)
    (options : t.options = s.options) (disposed : t.disposed = s.disposed) :
    root.tree.storage = t.refreshTail.storage ∧ s.Follows xs t.refreshTail := by
  obtain ⟨level, tree⟩ := root
  obtain ⟨front, last, packed⟩ := packed
  refine ⟨(storage_of_root (s := t.refreshTail) here).symm, ?_, ?_, options, disposed⟩
  · refine .tree (s := t.refreshTail) here (options ▸ packed) (elements ▸ length) ?_
    simp [refreshTail, here, packed.shaped.lastNumber?_eq, packed.parts]
  · exact (toList_of_root (s := t.refreshTail) here).trans elements

/-- The same tail in a tree with another last segment. -/
theorem follows_setLast {t : Sequence α} {xs : List α} {level : Nat} {tree : Tree α level}
    {front : List (Buffer α)} {last : Buffer α} (here : t.root = some { level, tree })
    (packed : tree.Packed s.options.segmentCapacity front last) (elements : tree.toList = xs)
    (length : t.length = xs.length) (tail : t.tail = some front.length)
    (options : t.options = s.options) (disposed : t.disposed = s.disposed) :
    tree.storage = t.storage ∧ s.Follows xs t :=
  ⟨(storage_of_root here).symm, .tree here (options ▸ packed) (elements ▸ length) tail,
    (toList_of_root here).trans elements, options, disposed⟩

theorem follows_none {s' : Sequence α} (root : s'.root = none) (length : s'.length = 0)
    (tail : s'.tail = none) (options : s'.options = s.options)
    (disposed : s'.disposed = s.disposed) : s.Follows [] s' :=
  ⟨.empty root length tail, toList_of_root_none root, options, disposed⟩

variable [Allocator σ α]

/-- The tail leads to the last segment, which alone is changed. -/
theorem updateTail_eq {m : Type → Type} [Monad m] [LawfulMonad m] {level : Nat}
    {tree : Tree α level} {front : List (Buffer α)} {last : Buffer α}
    (root : s.root = some { level, tree })
    (packed : tree.Packed s.options.segmentCapacity front last)
    (tail : s.tail = some front.length) (change : Buffer α → m (Buffer α)) :
    s.updateTail change = do
      let segment ← change last
      return { s with root := some { level, tree := tree.setLast segment } } := by
  unfold updateTail detach
  simp only [tail, root, packed.shaped.updateSegment_last packed.parts, bind_assoc, pure_bind]

variable [LawfulAllocator σ α]

open Depot (Ensures)

/-! ### Growth at the end -/

omit [LawfulAllocator σ α] in
theorem singleton_eq (options : Options) (capacity : Nat) (x : α) :
    (Root.singleton options capacity x : Depot.Step σ (Root α)) = do
      let segment ← Tree.openWith options capacity x
      return { level := 0, tree := segment } := by
  simp only [Root.singleton, Tree.openWith, bind_assoc]

theorem ensures_singleton (options : Options) (capacity : Nat) (x : α) :
    Ensures (σ := σ) options.segmentCapacity 0 (Root.singleton options capacity x)
      (fun root => root.tree.storage)
      (fun root => root.tree.toList = [x] ∧
        ∃ front last, root.tree.Packed options.segmentCapacity front last) := by
  rw [singleton_eq]
  apply (Root.ensures_openWith options capacity x).map
  intro segment done
  exact ⟨(Tree.storage_segment segment).symm, done.1, [], segment, Tree.packed_segment done.2⟩

theorem ensures_pushDeep (valid : s.Valid) (x : α) :
    Ensures (σ := σ) s.options.segmentCapacity s.storage (s.pushDeep x) storage
      (s.Follows (s.toList ++ [x])) := by
  have length := valid.length_eq
  unfold pushDeep detach
  cases valid with
  | empty root =>
    simp only [root, storage_of_root_none root]
    apply (ensures_singleton s.options s.firstCapacity x).map
    intro grown done
    refine follows_refreshTail rfl done.2 ?_ ?_ rfl rfl
    · rw [done.1, toList_of_root_none root, List.nil_append]
    · rw [List.length_append, ← length]
      rfl
  | tree root packed =>
    simp only [root, storage_of_root root]
    apply (Root.ensures_push packed s.length x).map
    intro grown appended
    refine follows_refreshTail rfl appended.packed ?_ ?_ rfl rfl
    · rw [appended.elements, toList_of_root root]
    · rw [List.length_append, ← length]
      rfl

theorem ensures_push (valid : s.Valid) (x : α) :
    Ensures (σ := σ) s.options.segmentCapacity s.storage (s.push x) storage
      (s.Follows (s.toList ++ [x])) := by
  have deep := ensures_pushDeep (σ := σ) valid x
  unfold push
  dsimp only
  split
  · rename_i spare
    have length := valid.length_eq
    cases valid with
    | empty root zero tail => simp [tailSegment?, tail] at spare
    | tree root packed total tail =>
      rename_i level tree front last
      have room : last.size < s.options.segmentCapacity := by
        simpa [Valid.tailSegment?_eq root packed tail, Buffer.isFull] using spare
      simp only [updateTail_eq root packed tail, bind_assoc, pure_bind]
      rw [storage_of_root root, Tree.storage_of_parts packed.parts, add_comm]
      apply ((Buffer.ensures_push x room packed.filled.fits).frame (rowStorage front)).map
      intro longer done
      have packed' := packed.opened.setLast done.2
      rw [add_comm, ← Tree.storage_of_parts packed'.parts]
      refine follows_setLast rfl packed' ?_ ?_ tail rfl rfl
      · rw [packed'.toList_eq, done.1, toList_of_root root, packed.toList_eq, List.append_assoc]
      · rw [List.length_append, ← length]
        rfl
  · exact deep

theorem valid_empty (options : Options) (firstCapacity : Nat) :
    ({ options, firstCapacity } : Sequence α).Valid :=
  .empty rfl rfl rfl

theorem ensures_extend (valid : s.Valid) (xs : List α) :
    Ensures (σ := σ) s.options.segmentCapacity s.storage (s.extend xs) storage
      (s.Follows (s.toList ++ xs)) := by
  unfold extend
  induction xs generalizing s with
  | nil =>
    rw [List.append_nil]
    exact Ensures.pure rfl (.refl valid)
  | cons x rest ih =>
    rw [List.foldlM_cons]
    apply (ensures_push valid x).bind
    intro s' follows
    rw [← follows.options]
    refine (ih follows.valid).weaken fun s'' follows' => ⟨rfl, follows.trans ?_⟩
    rwa [follows.elements, List.append_assoc, List.singleton_append] at follows'

theorem ensures_copy (s : Sequence α) :
    Ensures (σ := σ) s.options.segmentCapacity 0 s.copy storage
      ({ s with disposed := false }.Follows s.toList) :=
  (ensures_extend (valid_empty s.options s.firstCapacity) s.toList).weaken fun _ follows =>
    ⟨rfl, follows.valid, follows.elements, follows.options, follows.disposed⟩

/-! ### The end of the contents -/

theorem ensures_reclaimAll (options : Options) {limit level : Nat} (tree : Tree α level) :
    Ensures (σ := σ) limit tree.storage (reclaimAll options (some { level, tree })) (fun _ => 0)
      (fun _ => True) :=
  Ensures.forM_toList fun segment _ => Buffer.ensures_reclaim _ segment options.clearsOnReturn

/-- A sequence lets go of a tree in which nothing is left. -/
theorem ensures_settle {s' : Sequence α} {xs : List α} {level : Nat} {tree : Tree α level}
    (here : s'.root = some { level, tree })
    (remains : tree.Remains s.options.segmentCapacity xs) (length : s'.length = xs.length)
    (options : s'.options = s.options) (disposed : s'.disposed = s.disposed) :
    Ensures (σ := σ) s.options.segmentCapacity tree.storage s'.settle storage
      (s.Follows xs) := by
  unfold settle
  split
  · rename_i zero
    obtain rfl : xs = [] := List.eq_nil_of_length_eq_zero (length ▸ zero)
    simp only [detach, here]
    apply (ensures_reclaimAll s'.options tree).bind
    intro _ _
    have regular : Notice.Regular .collapsed := fun _ => nofun
    apply (Depot.ensures_notify (σ := σ) (α := α) regular 0).map
    intro _ _
    exact ⟨(storage_of_root_none rfl).symm, follows_none rfl zero rfl options disposed⟩
  · rename_i some
    have nonempty : xs ≠ [] := fun none => some (by rw [length, none]; rfl)
    obtain ⟨elements, packed⟩ := remains nonempty
    have follows := follows_refreshTail here packed elements length options disposed
    exact Ensures.pure follows.1 follows.2

theorem ensures_clear {limit : Nat} (valid : s.Valid) :
    Ensures (σ := σ) limit s.storage s.clear storage (s.Follows []) := by
  unfold clear
  cases valid with
  | empty root length tail =>
    simp only [root, length, decide_true, Option.isNone_none, Bool.and_self, if_true]
    exact Ensures.pure rfl (follows_none root length tail rfl rfl)
  | tree root packed length =>
    simp only [root, detach, Option.isNone_some, Bool.and_false, Bool.false_eq_true, if_false,
      storage_of_root root]
    apply Ensures.map (ensures_reclaimAll s.options _)
    intro _ _
    exact ⟨(storage_of_root_none rfl).symm, follows_none rfl rfl rfl rfl rfl⟩

theorem ensures_dispose (valid : s.Valid) :
    Ensures (σ := σ) s.options.segmentCapacity s.storage s.dispose storage
      (fun s' => { s with disposed := true }.Follows (if s.disposed then s.toList else []) s') := by
  unfold dispose
  split
  · rename_i disposed
    exact Ensures.pure rfl ⟨valid, rfl, rfl, disposed⟩
  · apply (ensures_clear valid).bind
    intro s' follows
    have regular : Notice.Regular .disposed := fun _ => nofun
    refine (Depot.ensures_notify (σ := σ) (α := α) regular s'.storage).map fun _ _ => ⟨rfl, ?_⟩
    have root : s'.root = none := follows.valid.length_eq_zero_iff.mp (by
      rw [follows.valid.length_eq, follows.elements, List.length_nil])
    cases follows.valid with
    | empty _ length tail => exact follows_none root length tail follows.options rfl
    | tree here => cases root.symm.trans here

theorem ensures_discard {limit : Nat} (valid : s.Valid) :
    Ensures (σ := σ) limit s.storage s.discard (fun _ => 0) (fun _ => True) := by
  have cleared : Ensures (σ := σ) limit s.storage (do
      let _ ← s.clear
      return ()) (fun _ => 0) fun _ => True := by
    refine (ensures_clear valid).map fun s' follows => ⟨?_, trivial⟩
    refine storage_of_root_none (follows.valid.length_eq_zero_iff.mp ?_)
    rw [follows.valid.length_eq, follows.elements, List.length_nil]
  unfold discard
  split
  · have regular : Notice.Regular (.abandoned s.length s.segmentCount) := fun _ => nofun
    exact (Depot.ensures_notify (σ := σ) (α := α) regular s.storage).bind fun _ _ => cleared
  · exact cleared

/-! ### Single elements -/

theorem ensures_popDeep (valid : s.Valid) (some : s.length ≠ 0) :
    Ensures (σ := σ) s.options.segmentCapacity s.storage s.popDeep
      (fun answer => answer.2.storage)
      (fun answer => answer.1 = s.toList.getLast? ∧ s.Follows s.toList.dropLast answer.2) := by
  unfold popDeep detach
  cases valid with
  | empty root length => exact absurd length some
  | tree root packed length tail =>
    rename_i level tree _ _
    simp only [root, storage_of_root root, toList_of_root root]
    apply (Tree.ensures_pop packed).bind
    intro answer done
    obtain ⟨removed, remains⟩ := done
    have present : tree.toList.getLast? = Option.some (tree.toList.getLast packed.toList_ne_nil) :=
      List.getLast?_eq_some_getLast packed.toList_ne_nil
    rw [present] at removed
    obtain ⟨_, tree'⟩ := answer
    obtain rfl := removed
    refine Ensures.map (ensures_settle rfl remains ?_ rfl rfl)
      fun s' follows => ⟨rfl, present.symm, follows⟩
    exact (congrArg (· - 1) length).trans List.length_dropLast.symm

theorem ensures_pop (valid : s.Valid) :
    Ensures (σ := σ) s.options.segmentCapacity s.storage s.pop (fun answer => answer.2.storage)
      (fun answer => answer.1 = s.toList.getLast? ∧ s.Follows s.toList.dropLast answer.2) := by
  have length := valid.length_eq
  unfold pop
  split
  · rename_i zero
    have none : s.toList = [] := List.eq_nil_of_length_eq_zero (length ▸ zero)
    have follows := Follows.refl valid
    rw [none] at follows ⊢
    exact Ensures.pure rfl ⟨rfl, follows⟩
  · rename_i some
    split
    · rename_i spare
      have removed := valid.last?_eq
      cases valid with
      | empty root zero => exact absurd zero some
      | tree root packed total tail =>
        rename_i level tree front last
        obtain ⟨items, capacity⟩ := last
        obtain ⟨kept, x, rfl⟩ := Array.eq_push_of_size_ne_zero
          (Nat.ne_of_gt packed.filled.positive)
        have another : 0 < kept.size := by
          simpa [Valid.tailSegment?_eq root packed tail, Buffer.size] using spare
        have bounded := packed.filled.bounded
        have fits := packed.filled.fits
        simp only [Buffer.size, Array.size_push, Buffer.Fits] at bounded fits
        have filled : ({ items := kept, capacity } : Buffer α).Filled s.options.segmentCapacity :=
          ⟨another, Nat.le_of_succ_le bounded, Nat.le_of_succ_le fits⟩
        have packed' := packed.opened.setLast filled
        simp only [updateTail_eq root packed tail, pure_bind, Buffer.popKeeping, Array.pop_push]
        have elements : (tree.setLast { items := kept, capacity }).toList = s.toList.dropLast := by
          rw [packed'.toList_eq, toList_of_root root, packed.toList_eq, Buffer.toList,
            Buffer.toList, Array.toList_push, ← List.append_assoc, List.dropLast_concat]
        have follows := follows_setLast (s := s)
          (t := { s with
            root := Option.some { level, tree := tree.setLast { items := kept, capacity } }
            length := s.length - 1, version := s.version + 1 })
          rfl packed' elements (by rw [List.length_dropLast, ← length]) tail rfl rfl
        refine Ensures.pure ?_ ⟨removed, follows.2⟩
        refine Eq.trans ?_ follows.1
        rw [storage_of_root root, Tree.storage_of_parts packed.parts,
          Tree.storage_of_parts packed'.parts]
        rfl
    · exact ensures_popDeep valid some

theorem ensures_insertDeep {level : Nat} {tree : Tree α level} {front : List (Buffer α)}
    {last : Buffer α} {t : Sequence α} {index : Nat}
    (packed : tree.Packed s.options.segmentCapacity front last)
    (inside : index < tree.toList.length) (x : α) (length : t.length = tree.toList.length)
    (options : t.options = s.options) (disposed : t.disposed = s.disposed) :
    Ensures (σ := σ) s.options.segmentCapacity tree.storage
      (t.insertDeep index x { level, tree }) storage
      (s.Follows (tree.toList.insertIdx index x)) := by
  have longer : t.length + 1 = (tree.toList.insertIdx index x).length := by
    rw [List.length_insertIdx_of_le_length (Nat.le_of_lt inside), length]
  rw [← options] at packed ⊢
  unfold insertDeep
  apply (Tree.ensures_insert packed inside x).bind
  intro answer done
  obtain ⟨tree', carry⟩ := answer
  obtain ⟨⟨front', last', packed'⟩, contents⟩ := done
  cases carry with
  | none =>
    rw [Option.toList_none, List.append_nil] at contents
    have follows := follows_refreshTail (s := s)
      (t := ({ t with root := some { level, tree := tree' }, length := t.length + 1 }.bump))
      rfl ⟨front', last', options ▸ packed'⟩ contents longer options disposed
    exact Ensures.pure follows.1 follows.2
  | some carry =>
    apply (Root.ensures_push packed' t.length carry).map
    intro root appended
    exact follows_refreshTail rfl (options ▸ appended.packed) (appended.elements.trans contents)
      longer options disposed

theorem ensures_insert (valid : s.Valid) {index : Nat} (inside : index ≤ s.length) (x : α) :
    Ensures (σ := σ) s.options.segmentCapacity s.storage (s.insert index x) storage
      (s.Follows (s.toList.insertIdx index x)) := by
  have length := valid.length_eq
  unfold insert
  split
  · rename_i atEnd
    rw [atEnd, length, List.insertIdx_length_self]
    exact ensures_push valid x
  · rename_i before
    cases valid with
    | empty root zero => exact absurd (Nat.le_zero.mp (zero ▸ inside)) (zero ▸ before)
    | tree root packed total tail =>
      rename_i level tree front last
      have within : index < tree.toList.length := by omega
      rw [storage_of_root root, toList_of_root root]
      have deep := ensures_insertDeep (σ := σ) (s := s) (t := { s with root := none }) packed
        within x total rfl rfl
      simp only [detach, root]
      cases level with
      | succ level => exact deep
      | zero =>
        obtain ⟨rfl, rfl⟩ := Tree.eq_of_row_segment packed.parts
        cases room : last.isFull s.options with
        | true => simpa only [room, if_true] using deep
        | false =>
          have size : (@Tree.toList α 0 last).length = last.size := Buffer.length_toList last
          have bounds : index ≤ last.size := by omega
          simp only [room, Bool.false_eq_true, if_false]
          rw [Tree.storage_segment]
          refine (Buffer.ensures_insert x (Buffer.isFull_eq_false_iff.mp room) packed.filled.fits
            bounds).map fun longer done => ?_
          rw [← Tree.storage_segment longer]
          refine follows_setLast rfl (Tree.packed_segment done.2) done.1 ?_ tail rfl rfl
          rw [List.length_insertIdx_of_le_length (by omega)]
          exact congrArg (· + 1) total

theorem ensures_removeAt (valid : s.Valid) {index : Nat} (inside : index < s.length) :
    Ensures (σ := σ) s.options.segmentCapacity s.storage (s.removeAt index)
      (fun answer => answer.2.storage)
      (fun answer => answer.1 = s.toList[index]? ∧
        s.Follows (s.toList.eraseIdx index) answer.2) := by
  unfold removeAt
  cases valid with
  | empty root zero => exact absurd inside (zero ▸ Nat.not_lt_zero index)
  | tree root packed total tail =>
    rename_i level tree front last
    simp only [detach, root, storage_of_root root, toList_of_root root]
    apply (Tree.ensures_removeAt packed (total ▸ inside)).bind
    intro answer done
    obtain ⟨removed, remains⟩ := done
    refine Ensures.map (ensures_settle rfl remains ?_ rfl rfl)
      fun s' follows => ⟨rfl, removed, follows⟩
    rw [List.length_eraseIdx_of_lt (total ▸ inside), ← total]
    rfl

/-! ### Lengths in bulk -/

/-- No lower tree has room for all the segments. -/
def Tight (s : Sequence α) : Prop := ∀ root, s.root = some root → root.Tight

theorem ensures_ensure (valid : s.Valid) (length : Nat) (x : α) :
    Ensures (σ := σ) s.options.segmentCapacity s.storage (s.ensure length x) storage
      (fun s' => s.Follows (s.toList ++ List.replicate (length - s.length) x) s' ∧
        (s.Tight → s'.Tight)) := by
  have total := valid.length_eq
  unfold ensure
  split
  · rename_i enough
    rw [Nat.sub_eq_zero_of_le enough, List.replicate_zero, List.append_nil]
    exact Ensures.pure rfl ⟨.refl valid, id⟩
  · rename_i more
    have longer : length = (s.toList ++ List.replicate (length - s.length) x).length := by
      rw [List.length_append, List.length_replicate, ← total]
      omega
    simp only [detach]
    cases valid with
    | empty root zero tail =>
      simp only [root, storage_of_root_none root, Root.start, bind_assoc, pure_bind]
      apply (Buffer.ensures_start s.options (length - s.length)).bind
      intro segment started
      have vacant : segment.toList = [] := by rw [Buffer.toList, started.1]
      rw [← Tree.storage_segment segment]
      apply (Root.ensures_fill (Tree.open_segment started.1) (by omega) s.length x).map
      intro root appended
      have elements : root.tree.toList = s.toList ++ List.replicate (length - s.length) x := by
        rw [appended.elements, toList_of_root_none ‹s.root = none›]
        exact congrArg (· ++ _) vacant
      have follows := follows_refreshTail (s := s)
        (t := ({ s with root := some root, length }.bump)) rfl appended.packed elements longer rfl
        rfl
      refine ⟨follows.1, follows.2, fun _ root' same => ?_⟩
      cases same
      exact appended.tight fun lower none => absurd none (Nat.zero_ne_add_one lower)
    | tree root packed same tail =>
      simp only [root, storage_of_root root, pure_bind]
      apply (Root.ensures_fill packed.opened (fun _ => packed.filled.positive) s.length x).map
      intro root' appended
      have elements : root'.tree.toList = s.toList ++ List.replicate (length - s.length) x := by
        rw [appended.elements, toList_of_root root]
      have follows := follows_refreshTail (s := s)
        (t := ({ s with root := some root', length }.bump)) rfl appended.packed elements longer rfl
        rfl
      refine ⟨follows.1, follows.2, fun tight root'' same => ?_⟩
      cases same
      exact appended.tight (tight _ root)

theorem ensures_truncate (valid : s.Valid) (length : Nat) :
    Ensures (σ := σ) s.options.segmentCapacity s.storage (s.truncate length) storage
      (s.Follows (s.toList.take length)) := by
  have total := valid.length_eq
  unfold truncate
  split
  · rename_i short
    rw [List.take_of_length_le (total ▸ short)]
    exact Ensures.pure rfl (.refl valid)
  split
  · rename_i zero
    rw [zero, List.take_zero]
    exact ensures_clear valid
  · rename_i long some
    have shorter : length = (s.toList.take length).length := by
      rw [List.length_take]
      omega
    cases valid with
    | empty root zero => exact absurd (zero ▸ Nat.zero_le length) long
    | tree root packed same tail =>
      rename_i level tree front last
      rw [toList_of_root root] at total shorter ⊢
      simp only [detach, root, storage_of_root root]
      cases level with
      | zero =>
        obtain ⟨rfl, rfl⟩ := Tree.eq_of_row_segment packed.parts
        have bounded := packed.filled.bounded
        have fits := packed.filled.fits
        have size : (@Tree.toList α 0 last).length = last.size := Buffer.length_toList last
        have elements : ({ last with items := last.items.shrink length } : Buffer α).toList =
            last.toList.take length := Array.toList_shrink
        have kept : ({ last with items := last.items.shrink length } : Buffer α).size = length := by
          rw [← Buffer.length_toList, elements]
          exact shorter.symm
        have settled := Tree.ensures_settleSegment (σ := σ) s.options
          { last with items := last.items.shrink length } (by omega) (Nat.le_trans (by omega) fits)
        rw [elements] at settled
        rw [Tree.storage_segment]
        exact settled.bind fun segment remains => ensures_settle rfl remains shorter rfl rfl
      | succ level =>
        have fewer : s.length - (s.length - length) = length := by omega
        have more : s.length - length < tree.toList.length := by omega
        apply (Tree.ensures_popMany packed more).bind
        intro tree' remains
        rw [← total, fewer] at remains
        exact ensures_settle rfl remains shorter rfl rfl

theorem ensures_resize (valid : s.Valid) (length : Nat) (x : α) :
    Ensures (σ := σ) s.options.segmentCapacity s.storage (s.resize length x) storage
      (s.Follows (s.toList.take length ++ List.replicate (length - s.length) x)) := by
  have total := valid.length_eq
  unfold resize
  split
  · rw [List.take_of_length_le (by omega)]
    exact (ensures_ensure valid length x).weaken fun _ done => ⟨rfl, done.1⟩
  · rw [Nat.sub_eq_zero_of_le (by omega), List.replicate_zero, List.append_nil]
    exact ensures_truncate valid length

end Segmented.Sequence
