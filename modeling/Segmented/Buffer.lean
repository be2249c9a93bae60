/-! Rented storage: the elements it holds and the number of elements it was rented for. -/

namespace Segmented

/-- A run of elements in storage of a fixed capacity. An element takes up room, so that what has no
storage has capacity zero. Elements of size zero are left out: a list of them reports the largest
capacity of all without any storage, and goes back to the allocator a second time. -/
structure Buffer (α : Type) where
  items : Array α := #[]
  capacity : Nat := 0
  deriving DecidableEq, Repr

namespace Buffer

variable {α : Type}

instance : Inhabited (Buffer α) := ⟨{}⟩

def size (buffer : Buffer α) : Nat := buffer.items.size

def isEmpty (buffer : Buffer α) : Bool := buffer.items.isEmpty

def toList (buffer : Buffer α) : List α := buffer.items.toList

/-- The same storage with nothing in it. -/
def cleared (buffer : Buffer α) : Buffer α := { capacity := buffer.capacity }

/-- Empty storage for `capacity` elements. -/
def ofCapacity (capacity : Nat) : Buffer α := { capacity }

@[simp] theorem toList_cleared (buffer : Buffer α) : buffer.cleared.toList = [] := rfl

@[simp] theorem capacity_cleared (buffer : Buffer α) :
    buffer.cleared.capacity = buffer.capacity := rfl

@[simp] theorem toList_ofCapacity (capacity : Nat) :
    (ofCapacity capacity : Buffer α).toList = [] := rfl

end Buffer

end Segmented
