import Segmented.Proofs.Introsort
import Segmented.Proofs.SequenceStep
import Segmented.Sequence.Access
import Segmented.Sequence.Arrange

/-! What the operations that keep the length of a sequence do to the list of its elements, and
that they leave its storage alone or account for it. -/

namespace Segmented.Sequence

variable {σ α : Type} {s : Sequence α}

theorem modify_const {items : List α} (index : Nat) (x : α) :
    (items.modify index fun _ => x) = items.set index x := by
  refine List.ext_getElem? fun position => ?_
  rw [List.getElem?_modify, List.getElem?_set']
  by_cases here : index = position
  · subst here
    rw [if_pos rfl]
    simp only [if_true]
    rfl
  · simp [here]

/-- The same tail in a tree whose segments are the same as far as their sizes and storage go. -/
theorem follows_matches {s' : Sequence α} {xs : List α} {level : Nat} {tree other : Tree α level}
    {front : List (Buffer α)} {last : Buffer α} (old : s.root = some { level, tree })
    (packed : tree.Packed s.options.segmentCapacity front last) (matched : other.Matches tree)
    (here : s'.root = some { level, tree := other }) (elements : other.toList = xs)
    (length : s'.length = xs.length) (tail : s'.tail = some front.length)
    (options : s'.options = s.options) (disposed : s'.disposed = s.disposed) :
    s.storage = s'.storage ∧ s.Follows xs s' := by
  obtain ⟨front', last', packed', same⟩ := packed.of_matches matched
  have follows := follows_setLast here packed' elements length (same ▸ tail) options disposed
  exact ⟨(storage_of_root old).trans (matched.storage.symm.trans follows.1), follows.2⟩

theorem follows_modify (valid : s.Valid) (index : Nat) (change : α → α) :
    s.storage = (s.modify index change).storage ∧
      s.Follows (s.toList.modify index change) (s.modify index change) := by
  have length := valid.length_eq
  unfold modify detach
  cases valid with
  | empty root zero tail =>
    simp only [root, storage_of_root_none root, toList_of_root_none root, List.modify_nil]
    exact ⟨(storage_of_root_none rfl).symm, follows_none rfl zero tail rfl rfl⟩
  | tree root packed total tail =>
    obtain ⟨matched, elements⟩ := packed.modify change index
    simp only [root, toList_of_root root]
    refine follows_matches root packed matched rfl elements ?_ tail rfl rfl
    rw [List.length_modify, ← total]

theorem follows_set (valid : s.Valid) (index : Nat) (x : α) :
    s.storage = (s.modify index fun _ => x).storage ∧
      s.Follows (s.toList.set index x) (s.modify index fun _ => x) := by
  rw [← modify_const]
  exact follows_modify valid index fun _ => x

theorem follows_refill (valid : s.Valid) {contents : Array α}
    (enough : contents.size = s.length) :
    s.storage = (s.refill contents).storage ∧
      s.Follows contents.toList (s.refill contents) := by
  have length := valid.length_eq
  unfold refill detach
  cases valid with
  | empty root zero tail =>
    obtain rfl := Array.eq_empty_of_size_eq_zero (enough.trans zero)
    simp only [root, storage_of_root_none root]
    exact ⟨(storage_of_root_none rfl).symm, follows_none rfl zero tail rfl rfl⟩
  | tree root packed total tail =>
    obtain ⟨matched, elements⟩ := packed.refill (enough.trans total)
    simp only [root]
    exact follows_matches root packed matched rfl elements (by simp [enough]) tail rfl rfl

/-- Other contents do not change the depth. -/
theorem Valid.tight_refill (valid : s.Valid) (tight : s.Tight) (contents : Array α) :
    (s.refill contents).Tight := by
  unfold refill detach
  cases valid with
  | empty root =>
    simp only [root]
    exact fun _ none => (nomatch none)
  | tree root packed =>
    simp only [root]
    intro root' same lower deeper
    cases same
    have bound := tight _ root lower deeper
    rwa [← (packed.shaped.refill _ contents 0).2] at bound

/-- A new version is no change of the contents. -/
theorem Follows.versioned {s' : Sequence α} {xs : List α} (follows : s.Follows xs s')
    (version : UInt16) : s.Follows xs { s' with version } := by
  obtain ⟨valid, elements, options, disposed⟩ := follows
  refine ⟨?_, elements, options, disposed⟩
  cases valid with
  | empty root zero tail => exact .empty root zero tail
  | tree root packed total tail => exact .tree root packed total tail

theorem follows_exchange (valid : s.Valid) {first second : Nat} {x y : α}
    (here : s.toList[first]? = some x) (there : s.toList[second]? = some y) :
    s.storage = (s.exchange first second).storage ∧
      s.Follows ((s.toList.set first y).set second x) (s.exchange first second) := by
  unfold exchange
  simp only [valid.get?_eq, here, there]
  obtain ⟨stored, follows⟩ := follows_set valid first y
  obtain ⟨stored', follows'⟩ := follows_set follows.valid second x
  rw [follows.elements] at follows'
  exact ⟨stored.trans stored', follows.trans follows'⟩

/-- What stands before, in and behind a run of which `x` has been written already. -/
theorem take_set_append_drop_set {items : List α} {index : Nat} (bound : index < items.length)
    (x : α) (rest : List α) (count : Nat) :
    (items.set index x).take (index + 1) ++ rest ++ (items.set index x).drop (index + 1 + count) =
      items.take index ++ x :: rest ++ items.drop (index + (count + 1)) := by
  have front : (items.set index x).take (index + 1) = items.take index ++ [x] := by
    rw [List.take_succ_eq_append_getElem (by rwa [List.length_set]),
      List.take_set_of_le (Nat.le_refl index), List.getElem_set_self]
  have behind : (items.set index x).drop (index + 1 + count) =
      items.drop (index + (count + 1)) := by
    rw [List.drop_set_of_lt (by omega), Nat.add_right_comm, Nat.add_assoc]
  rw [front, behind, List.append_assoc _ [x] rest, List.singleton_append]

theorem follows_overwrite (valid : s.Valid) {index : Nat} {xs : List α}
    (inside : index + xs.length ≤ s.length) :
    s.storage = (s.overwrite index xs).storage ∧
      s.Follows (s.toList.take index ++ xs ++ s.toList.drop (index + xs.length))
        (s.overwrite index xs) := by
  induction xs generalizing s index with
  | nil =>
    rw [List.append_nil, List.length_nil, Nat.add_zero, List.take_append_drop]
    exact ⟨rfl, .refl valid⟩
  | cons x rest ih =>
    rw [List.length_cons] at inside ⊢
    obtain ⟨stored, follows⟩ := follows_set valid index x
    have length := follows.valid.length_eq
    rw [follows.elements, List.length_set, ← valid.length_eq] at length
    have inside' : index + 1 + rest.length ≤ (s.modify index fun _ => x).length := by omega
    obtain ⟨stored', follows'⟩ := ih follows.valid inside'
    refine ⟨stored.trans stored', follows.trans ?_⟩
    rw [follows.elements] at follows'
    have bound : index < s.toList.length := by
      rw [← valid.length_eq]
      omega
    rwa [take_set_append_drop_set bound] at follows'

theorem follows_copyFrom (valid : s.Valid) {source : Array α} {start index count : Nat}
    (there : start + count ≤ source.size) (inside : index + count ≤ s.length) :
    s.storage = (s.copyFrom source start index count).storage ∧
      s.Follows (s.toList.take index ++ (source.toList.drop start).take count ++
        s.toList.drop (index + count)) (s.copyFrom source start index count) := by
  have items : (source.extract start (start + count)).toList =
      (source.toList.drop start).take count := by
    rw [Array.toList_extract, List.extract, Nat.add_sub_cancel_left]
  have size : ((source.toList.drop start).take count).length = count := by
    rw [List.length_take, List.length_drop, Array.length_toList]
    omega
  have written := follows_overwrite valid (size.symm ▸ inside)
  rw [copyFrom, items]
  rwa [size] at written

theorem follows_reverse (valid : s.Valid) :
    s.storage = s.reverse.storage ∧ s.Follows s.toList.reverse s.reverse := by
  have enough : s.toArray.reverse.size = s.length := by
    rw [Array.size_reverse, valid.length_eq]
    exact Array.length_toList.symm
  obtain ⟨stored, follows⟩ := follows_refill valid enough
  rw [Array.toList_reverse] at follows
  exact ⟨stored, follows.versioned _⟩

variable [Allocator σ α] [LawfulAllocator σ α]

open Depot (Ensures)

theorem ensures_placeAt [Inhabited α] (valid : s.Valid) (index : Nat) (x : α) :
    Ensures (σ := σ) s.options.segmentCapacity s.storage (s.placeAt index x) storage
      (s.Follows
        ((s.toList ++ List.replicate (countTo index - s.length) default).set index x)) := by
  rw [placeAt_eq]
  apply (ensures_ensure valid (countTo index) default).map
  intro s' done
  obtain ⟨stored, follows⟩ := follows_set done.1.valid index x
  rw [done.1.elements] at follows
  exact ⟨stored, done.1.trans follows⟩

/-- The last element is stored at the tail. -/
theorem ensures_replaceLast (valid : s.Valid) (x : α) :
    Ensures (σ := σ) s.options.segmentCapacity s.storage
      (s.updateTail fun segment => pure (segment.replaceLast x)) storage
      (s.Follows (s.toList.set (s.toList.length - 1) x)) := by
  cases valid with
  | empty root zero tail =>
    have none := toList_of_root_none root
    have follows := Follows.refl (.empty root zero tail)
    simp only [updateTail, tail]
    rw [none] at follows ⊢
    exact Ensures.pure rfl follows
  | tree root packed total tail =>
    rename_i level tree front last
    have size : (last.replaceLast x).size = last.size := Array.size_modify
    have stored : (last.replaceLast x).storage = last.storage := Buffer.storage_of_capacity rfl
    have filled : (last.replaceLast x).Filled s.options.segmentCapacity :=
      ⟨size ▸ packed.filled.positive, size ▸ packed.filled.bounded,
        Nat.le_trans (Nat.le_of_eq size) packed.filled.fits⟩
    have packed' := packed.opened.setLast filled
    have elements : (tree.setLast (last.replaceLast x)).toList =
        tree.toList.set (tree.toList.length - 1) x := by
      have some := packed.filled.positive
      rw [packed'.toList_eq, packed.toList_eq, List.length_append, Buffer.length_toList,
        List.set_append_right _ _ (by omega), Nat.add_sub_assoc some, Nat.add_sub_cancel_left,
        ← modify_const]
      exact congrArg (_ ++ ·) Array.toList_modify
    simp only [updateTail_eq root packed tail, pure_bind, toList_of_root root]
    have follows := follows_setLast (s := s)
      (t := { s with root := some { level, tree := tree.setLast (last.replaceLast x) } })
      rfl packed' elements (by rw [List.length_set, ← total]) tail rfl rfl
    refine Ensures.pure (Eq.trans ?_ follows.1) follows.2
    rw [storage_of_root root, Tree.storage_of_parts packed.parts,
      Tree.storage_of_parts packed'.parts, stored]

/-! ### Order -/

theorem length_stableSort (order : α → α → Ordering) (xs : List α) :
    (stableSort order xs).length = xs.length :=
  List.length_mergeSort xs

theorem Valid.size_stableSort (valid : s.Valid) (order : α → α → Ordering) :
    (stableSort order s.toList).toArray.size = s.length := by
  rw [List.size_toArray, length_stableSort, valid.length_eq]

theorem follows_sortFlat (valid : s.Valid) (order : α → α → Ordering) {items : Array α}
    (flat : s.flat? = some items) :
    s.storage = ((s.refill (stableSort order items.toList).toArray).bump).storage ∧
      s.Follows (stableSort order s.toList)
        ((s.refill (stableSort order items.toList).toArray).bump) := by
  obtain rfl := flat?_eq_toArray flat
  obtain ⟨stored, follows⟩ := follows_refill valid (valid.size_stableSort order)
  exact ⟨stored, follows.versioned _⟩

theorem ensures_takeAll (s : Sequence α) :
    Ensures (σ := σ) s.options.segmentCapacity s.storage s.takeAll
      (fun answer => answer.2.storage)
      (fun answer => answer.1 = s.toList ∧ s.Follows [] answer.2) := by
  have back : Ensures (σ := σ) s.options.segmentCapacity s.storage
      (s.segments.forM fun segment => Depot.reclaim segment.cleared s.options.clearsOnReturn)
      (fun _ => 0) fun _ => True :=
    Ensures.forM_toList fun segment _ =>
      Buffer.storage_of_capacity (Buffer.capacity_cleared segment) ▸
        Buffer.ensures_reclaim _ segment.cleared s.options.clearsOnReturn
  unfold takeAll
  refine back.map fun _ _ => ⟨(storage_of_root_none rfl).symm, rfl, ?_⟩
  exact follows_none rfl rfl rfl rfl rfl

theorem ensures_sort (valid : s.Valid) (order : α → α → Ordering) :
    Ensures (σ := σ) s.options.segmentCapacity s.storage (s.sort order) storage
      (s.Follows (stableSort order s.toList)) := by
  unfold sort
  split
  · rename_i items flat
    obtain ⟨stored, follows⟩ := follows_sortFlat valid order flat
    exact Ensures.pure stored follows
  · unfold sortRebuilt
    simp only [bind_assoc, pure_bind]
    apply (ensures_takeAll s).bind
    intro answer done
    obtain ⟨elements, s'⟩ := answer
    obtain ⟨rfl, emptied⟩ := done
    have regular : Notice.Regular (.sortingRebuilt s.toList.length) := fun _ => nofun
    apply (Depot.ensures_notify (σ := σ) (α := α) regular s'.storage).bind
    intro _ _
    rw [← emptied.options]
    apply (ensures_extend emptied.valid (stableSort order s.toList)).map
    intro s'' follows
    rw [emptied.elements, List.nil_append] at follows
    exact ⟨rfl, ((emptied.trans follows).versioned _).versioned _⟩

theorem ensures_sortUnstable (valid : s.Valid) (order : α → α → Ordering) :
    Ensures (σ := σ) s.options.segmentCapacity s.storage (s.sortUnstable order) storage
      (fun s' => ∃ sorted, sorted.Perm s.toList ∧ s.Follows sorted s') := by
  unfold sortUnstable
  split
  · rename_i items flat
    obtain ⟨stored, follows⟩ := follows_sortFlat valid order flat
    exact Ensures.pure stored ⟨_, List.mergeSort_perm _ _, follows⟩
  · obtain ⟨sorted, done, permuted⟩ := Introsort.permutes_sort order s.toArray
    rw [done]
    have enough : sorted.size = s.length := by
      rw [permuted.size_eq, valid.length_eq]
      exact Array.length_toList.symm
    obtain ⟨stored, follows⟩ := follows_refill valid enough
    exact Ensures.pure stored
      ⟨sorted.toList, Array.perm_iff_toList_perm.mp permuted, follows.versioned _⟩

end Segmented.Sequence
