import Mathlib.Data.List.InsertIdx

/-! Lists that are joined from pieces: where a position lies in them, and what a change in one of
the pieces does. -/

namespace Segmented

variable {τ β : Type} {pieces : List τ} {contents : τ → List β} {width : Nat}

theorem length_flatMap_of_width (wide : ∀ piece ∈ pieces, (contents piece).length = width) :
    (pieces.flatMap contents).length = pieces.length * width := by
  induction pieces with
  | nil => simp
  | cons piece rest ih =>
    have first := wide piece (by simp)
    have others := ih fun piece member => wide piece (by simp [member])
    rw [List.flatMap_cons, List.length_append, first, others, List.length_cons, Nat.succ_mul,
      Nat.add_comm]

/-- Among pieces of one width the quotient of a position finds the piece, and the remainder the
place in it. -/
theorem getElem?_flatMap_of_width (positive : 0 < width)
    (wide : ∀ piece ∈ pieces, (contents piece).length = width) (later : List β) (index : Nat) :
    (pieces.flatMap contents ++ later)[index]? =
      match pieces[index / width]? with
      | some piece => (contents piece)[index % width]?
      | none => later[index - pieces.length * width]? := by
  induction pieces generalizing index with
  | nil => simp
  | cons piece rest ih =>
    have first := wide piece (by simp)
    have others := ih fun piece member => wide piece (by simp [member])
    rw [List.flatMap_cons, List.append_assoc]
    by_cases inside : index < width
    · rw [Nat.div_eq_of_lt inside, Nat.mod_eq_of_lt inside, List.getElem?_append_left (by omega)]
      rfl
    · rw [List.getElem?_append_right (by omega), first, others,
        ← Nat.sub_add_cancel (Nat.not_lt.mp inside), Nat.add_div_right _ positive,
        Nat.add_mod_right, List.getElem?_cons_succ, List.length_cons, Nat.succ_mul]
      simp [Nat.add_sub_add_right]

theorem insertIdx_append_right (front later : List β) (index : Nat) (x : β) :
    (front ++ later).insertIdx (front.length + index) x = front ++ later.insertIdx index x :=
  List.modifyTailIdx_add _ index front later

theorem insertIdx_append_left {front : List β} {index : Nat} (inside : index ≤ front.length)
    (later : List β) (x : β) :
    (front ++ later).insertIdx index x = front.insertIdx index x ++ later := by
  induction front generalizing index with
  | nil => simp_all
  | cons y rest ih =>
    cases index with
    | zero => simp
    | succ index =>
      rw [List.cons_append, List.insertIdx_succ_cons, ih (Nat.le_of_succ_le_succ inside),
        List.insertIdx_succ_cons, List.cons_append]

theorem eraseIdx_append_right (front later : List β) (index : Nat) :
    (front ++ later).eraseIdx (front.length + index) = front ++ later.eraseIdx index := by
  rw [List.eraseIdx_append_of_length_le (Nat.le_add_right ..), Nat.add_sub_cancel_left]

theorem cons_eraseIdx_zero {items : List β} {x : β} (first : items[0]? = some x) :
    x :: items.eraseIdx 0 = items := by
  cases items with
  | nil => simp at first
  | cons y rest => rw [Option.some.inj first, List.eraseIdx_cons_zero]

/-- A change that a function does not see. -/
theorem map_modify_of_same {items : List τ} {change : τ → τ} {seen : τ → β}
    (same : ∀ item, seen (change item) = seen item) (index : Nat) :
    (items.modify index change).map seen = items.map seen := by
  refine List.ext_getElem? fun position => ?_
  rw [List.getElem?_map, List.getElem?_map, List.getElem?_modify]
  cases items[position]? with
  | none => rfl
  | some item =>
    simp only [Option.map_eq_map, Option.map_some]
    split
    · rw [same]
    · rfl

end Segmented
