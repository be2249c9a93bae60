import Segmented.Depot
import Segmented.Sequence

/-! Consuming a sequence element by element. A buffer goes back to the allocator in the step after
the one that took its last element; what a drain still holds when it is dropped goes back last
segment first. -/

namespace Segmented

/-- The buffers still held, the one being emptied first, of which `taken` elements are gone. -/
structure Drain (α : Type) where
  buffers : List (Buffer α) := []
  taken : Nat := 0
  remaining : Nat := 0
  clearsOnReturn : Bool := true

namespace Drain

variable {σ α : Type} [Allocator σ α]

/-- Takes a sequence apart. -/
def ofSequence (s : Sequence α) : Drain α :=
  { buffers := s.segments.toList, remaining := s.length
    clearsOnReturn := s.options.clearsOnReturn }

/-- The next element from position `taken` of the first buffer or from a later one; emptied
buffers go back. -/
def advance (clear : Bool) (remaining : Nat) :
    Nat → List (Buffer α) → Depot.Step σ (Option α × Drain α)
  | taken, [] => pure (none, { taken, remaining, clearsOnReturn := clear })
  | taken, buffer :: rest =>
    match buffer.items[taken]? with
    | some x => pure (some x, { buffers := buffer :: rest, taken := taken + 1
                                remaining := remaining - 1, clearsOnReturn := clear })
    | none => do
      Depot.release buffer.cleared clear
      advance clear remaining 0 rest

/-- Takes the next element, if there is one. -/
def next (drain : Drain α) : Depot.Step σ (Option α × Drain α) :=
  advance drain.clearsOnReturn drain.remaining drain.taken drain.buffers

/-- The elements that up to `count` calls of `next` yield; the first that yields none is the
last call. -/
def take (drain : Drain α) (count : Nat) : Depot.Step σ (List α × Drain α) :=
  go count [] drain
where
  go : Nat → List α → Drain α → Depot.Step σ (List α × Drain α)
    | 0, taken, drain => pure (taken.reverse, drain)
    | count + 1, taken, drain => do
      match ← drain.next with
      | (none, drain) => return (taken.reverse, drain)
      | (some x, drain) => go count (x :: taken) drain

/-- All buffers held, each with the elements still in it. -/
def held (drain : Drain α) : List (Buffer α) :=
  match drain.buffers with
  | [] => []
  | buffer :: rest => { buffer with items := buffer.items.drop drain.taken } :: rest

/-- Gives every buffer back, the last segment first. -/
def discard (drain : Drain α) : Depot.Step σ Unit :=
  drain.held.reverse.forM fun buffer => Depot.release buffer drain.clearsOnReturn

/-- What a drain shows of itself. -/
def text (drain : Drain α) : String :=
  s!"IntoIter \x7b remaining: {drain.remaining} \x7d"

end Drain

end Segmented
