import Segmented.Proofs.RoundTrip
import Segmented.Workspace

/-! Saving to a writer without enough room. A snapshot goes out in many writes, but whichever of
them is the first that does not fit, the writer is left with as much of the whole as it has room
for. -/

namespace Segmented

variable {σ α : Type}

namespace Writer

/-- A writer with room for the bytes takes them all, any other what it has room for. -/
theorem write_eq_take (bytes : List UInt8) (written : Array UInt8) (room : Nat) :
    Writer.write bytes { written, room := some room } =
      (if bytes.length ≤ room then .ok () else .error .full,
        { written := written ++ bytes.take room, room := some (room - bytes.length) }) := by
  by_cases fits : bytes.length ≤ room
  · simp [write, fits, List.take_of_length_le]
  · have none : room - bytes.length = 0 := by omega
    simp [write, fits, none]

end Writer

namespace Snapshot

variable [Codec Metadata] [Codec (Array α)] {s : Sequence α}

/-- What becomes of a save in bytes follows from one write of the whole. -/
theorem run_save (fit : Records.Fit s) (writer : Writer) (depot : Depot σ) :
    (save s writer).run depot =
      match writer.write (Records.bytes s) with
      | (.ok (), writer) =>
        ((.ok (), writer), { depot with
          notices := depot.notices.push (.serialized s.metadata.count s.metadata.segments) })
      | (.error fault, writer) => ((.error (.io fault), writer), depot) := by
  unfold save
  rw [Records.write_eq fit, Records.run_put]
  rcases writer.write (Records.bytes s) with ⟨_ | _, after⟩ <;> rfl

end Snapshot

namespace Sequence

variable [Codec Metadata] [Codec (Array α)] {s : Sequence α}

/-- A sequence whose records fit their lengths goes to a writer up to the room that there is: all of
its bytes, or the first of them and an error. Either way neither it nor any other sequence changes,
and nothing is asked of the allocator; a save of all of it leaves a notice. -/
theorem saved_up_to_room (fit : Records.Fit s) (written : Array UInt8) (room : Nat)
    (workspace : Workspace σ α) {slot : Nat} (here : workspace.get? slot = some s) :
    let full := Records.bytes s
    let unlimited := workspace.withDepot (Snapshot.save s ({ written } : Writer))
    let limited := workspace.withDepot (Snapshot.save s ({ written, room := some room } : Writer))
    let notice := Notice.serialized s.metadata.count s.metadata.segments
    unlimited.1 = (.ok (), { written := written ++ full }) ∧
      limited.1.2 = { written := written ++ full.take room, room := some (room - full.length) } ∧
      (limited.1.1 = .ok () ↔ full.length ≤ room) ∧
      (room < full.length → limited.1.1 = .error (.io .full)) ∧
      limited.2.get? slot = some s ∧ limited.2.slots = workspace.slots ∧
      limited.2.depot = if full.length ≤ room then
          { workspace.depot with notices := workspace.depot.notices.push notice }
        else workspace.depot := by
  obtain ⟨depot, slots⟩ := workspace
  have all := Snapshot.run_save fit { written } depot
  have part := Snapshot.run_save fit { written, room := some room } depot
  rw [Writer.write_eq_take] at part
  intro full unlimited limited notice
  have unlimited_eq : unlimited.1 = (.ok (), { written := written ++ full }) :=
    congrArg Prod.fst all
  have slots_eq : limited.2.slots = slots := rfl
  have found : limited.2.get? slot = some s := here
  by_cases fits : full.length ≤ room
  · rw [if_pos fits] at part
    have outcome : limited.1 =
        (.ok (), { written := written ++ full.take room, room := some (room - full.length) }) :=
      congrArg Prod.fst part
    refine ⟨unlimited_eq, congrArg Prod.snd outcome, iff_of_true (congrArg Prod.fst outcome) fits,
      fun short => absurd fits (Nat.not_le.mpr short), found, slots_eq, ?_⟩
    rw [if_pos fits]
    exact congrArg Prod.snd part
  · rw [if_neg fits] at part
    have outcome : limited.1 = (.error (.io .full),
        { written := written ++ full.take room, room := some (room - full.length) }) :=
      congrArg Prod.fst part
    have failed : limited.1.1 = .error (.io .full) := congrArg Prod.fst outcome
    refine ⟨unlimited_eq, congrArg Prod.snd outcome, iff_of_false ?_ fits, fun _ => failed, found,
      slots_eq, ?_⟩
    · rw [failed]
      exact nofun
    · rw [if_neg fits]
      exact congrArg Prod.snd part

end Sequence

/-! ### An example -/

namespace Sequence

open Wire

/-- Sixty-three bytes do not go into room for fifty, which end in the second of three arrays. -/
theorem pruned_saved_up_to_fifty :
    let workspace : Workspace (Heap UInt8) UInt8 :=
      { depot := { allocator := ⟨⟩ }, slots := [(0, pruned)] }
    let limited := workspace.withDepot (Snapshot.save pruned ({ room := some 50 } : Writer))
    (Records.bytes pruned).length = 63 ∧ limited.1.1 = .error (.io .full) ∧
      limited.1.2.written.toList = (Records.bytes pruned).take 50 ∧
      limited.2.get? 0 = some pruned := by
  intro workspace limited
  have length : (Records.bytes pruned).length = 63 := by decide +kernel
  have here : workspace.get? 0 = some pruned := rfl
  obtain ⟨-, outcome, -, failed, kept, -⟩ := saved_up_to_room fit_pruned #[] 50 workspace here
  have short : 50 < (Records.bytes pruned).length := by rw [length]; decide
  refine ⟨length, failed short, ?_, kept⟩
  rw [outcome]
  simp

end Sequence

end Segmented
