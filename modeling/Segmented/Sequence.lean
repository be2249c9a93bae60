import Segmented.Options
import Segmented.Tree

/-! A growable sequence in segments: its tree, and what a caller can read off it without changing
anything. -/

namespace Segmented

/-- A sequence of elements kept in the segments of a tree. -/
structure Sequence (α : Type) where
  root : Option (Root α) := none
  length : Nat := 0
  /-- The number of the segment that holds the last element, kept so that neither end of the
  tree has to be looked for. A segment keeps its number as long as it is there. -/
  tail : Option Nat := none
  /-- Counts the structural changes, modulo 65536. -/
  version : UInt16 := 0
  options : Options := default
  /-- The storage that the first segment is sized for. -/
  firstCapacity : Nat := 2
  disposed : Bool := false

namespace Sequence

variable {α : Type}

instance : Inhabited (Sequence α) := ⟨{}⟩

/-- An empty sequence whose first segment is sized for `hint` elements, within two and a
segment. -/
def withCapacity (hint : Nat) (options : Options) : Sequence α :=
  { options, firstCapacity := min options.segmentCapacity (max 2 hint) }

def isEmpty (s : Sequence α) : Bool := s.length == 0

/-- The elements from the first to the last. -/
def toArray (s : Sequence α) : Array α :=
  match s.root with
  | none => #[]
  | some root => root.tree.toArray

def toList (s : Sequence α) : List α := s.toArray.toList

/-- The segments from the first to the last. -/
def segments (s : Sequence α) : Array (Buffer α) :=
  match s.root with
  | none => #[]
  | some root => root.tree.segments

def segmentCount (s : Sequence α) : Nat :=
  match s.root with
  | none => 0
  | some root => root.tree.segmentCount

/-- The number of tree levels: none when empty, one for a single segment. -/
def depth (s : Sequence α) : Nat :=
  match s.root with
  | none => 0
  | some root => root.level + 1

/-- The elements as one run of storage, if they are in one segment. -/
def flat? (s : Sequence α) : Option (Array α) :=
  match s.root with
  | none => some #[]
  | some { level := 0, tree := (buffer : Buffer α) } => some buffer.items
  | some _ => none

/-- The elements lie in one segment. -/
def isFlat (s : Sequence α) : Bool := s.flat?.isSome

def get? (s : Sequence α) (index : Nat) : Option α :=
  if index < s.length then
    match s.root with
    | none => none
    | some root => root.tree.get? s.options.segmentCapacity index
  else none

def getD (s : Sequence α) (index : Nat) (default : α) : α := (s.get? index).getD default

def first? (s : Sequence α) : Option α := s.get? 0

/-- The segment at the tail. -/
def tailSegment? (s : Sequence α) : Option (Buffer α) :=
  match s.tail, s.root with
  | some number, some root => root.tree.segment? number
  | _, _ => none

/-- The last element, read off the segment at the tail. -/
def last? (s : Sequence α) : Option α :=
  match s.tailSegment? with
  | none => none
  | some buffer => buffer.items.back?

/-- Both sequences hold the same elements in the same order. -/
def sameElements [BEq α] (s t : Sequence α) : Bool :=
  s.length == t.length && s.toArray == t.toArray

/-- Every two neighbours stand in the relation. -/
def isSortedBy (related : α → α → Bool) (s : Sequence α) : Bool :=
  chained s.toList
where
  chained : List α → Bool
    | x :: y :: rest => related x y && chained (y :: rest)
    | _ => true

/-- Takes the tree out, so that it can be changed in place. -/
@[inline] def detach (s : Sequence α) : Option (Root α) × Sequence α :=
  (s.root, { s with root := none })

/-- Marks one structural change. -/
def bump (s : Sequence α) : Sequence α := { s with version := s.version + 1 }

/-- Looks the tail up after the segments have changed. -/
def refreshTail (s : Sequence α) : Sequence α :=
  { s with tail := s.root.bind fun root => root.tree.lastNumber? }

/-- Changes the segment at the tail in place. -/
def updateTail {m : Type → Type} [Monad m] (change : Buffer α → m (Buffer α))
    (s : Sequence α) : m (Sequence α) := do
  match s.tail with
  | none => return s
  | some number =>
    match s.detach with
    | (none, s) => return s
    | (some { level, tree }, s) =>
      let tree ← tree.updateSegment change number
      return { s with root := some { level, tree } }

/-- Changes the element at `index` without marking a structural change. -/
def modify (index : Nat) (change : α → α) (s : Sequence α) : Sequence α :=
  match s.detach with
  | (none, s) => s
  | (some { level, tree }, s) =>
    { s with root := some { level, tree := tree.modify s.options.segmentCapacity change index } }

/-- Exchanges the elements at two positions of the sequence. -/
def exchange (first second : Nat) (s : Sequence α) : Sequence α :=
  match s.get? first, s.get? second with
  | some x, some y => (s.modify first fun _ => y).modify second fun _ => x
  | _, _ => s

/-- Writes the listed elements over those from `index` on. -/
def overwrite (index : Nat) : List α → Sequence α → Sequence α
  | [], s => s
  | x :: rest, s => overwrite (index + 1) rest (s.modify index fun _ => x)

/-- Writes other contents of the same length into the segments as they are. -/
def refill (contents : Array α) (s : Sequence α) : Sequence α :=
  match s.detach with
  | (none, s) => s
  | (some { level, tree }, s) =>
    { s with root := some { level, tree := tree.refill s.options.segmentCapacity contents 0 } }

end Sequence

end Segmented
