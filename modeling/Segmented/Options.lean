/-! Options of a sequence: the capacity of its segments, always a power of two from sixteen to
2^20, and whether buffers are cleared as they are given back. -/

namespace Segmented

/-- The segment capacities that a sequence may have. -/
def SupportedCapacity (capacity : Nat) : Prop :=
  16 ≤ capacity ∧ capacity ≤ 1 <<< 20 ∧ 1 <<< capacity.log2 = capacity

instance (capacity : Nat) : Decidable (SupportedCapacity capacity) :=
  inferInstanceAs (Decidable (_ ∧ _ ∧ _))

/-- The whole exponent nearest to the binary logarithm of `requested`, kept between four and
twenty. Doubling the square moves the rounding threshold onto a whole power of two. -/
def alignExponent (requested : Nat) : Nat :=
  max 4 (min 20 ((2 * requested * requested).log2 / 2))

/-- The supported capacity nearest to a requested one on the logarithmic scale. -/
def alignCapacity (requested : Nat) : Nat := 1 <<< alignExponent requested

theorem supportedCapacity_alignCapacity (requested : Nat) :
    SupportedCapacity (alignCapacity requested) := by
  have lower : 4 ≤ alignExponent requested := Nat.le_max_left ..
  have upper : alignExponent requested ≤ 20 := by unfold alignExponent; omega
  simp only [SupportedCapacity, alignCapacity, Nat.one_shiftLeft, Nat.log2_two_pow]
  exact ⟨Nat.pow_le_pow_right (n := 2) (by decide) lower,
    Nat.pow_le_pow_right (by decide) upper, trivial⟩

/-- How a sequence lays out and gives back its storage. -/
structure Options where
  /-- The most elements that one segment holds. -/
  segmentCapacity : Nat := 1 <<< 20
  /-- Whether the allocator is told to clear the buffers it gets back. -/
  clearsOnReturn : Bool := true
  supported : SupportedCapacity segmentCapacity := by decide
  deriving DecidableEq

instance : Inhabited Options := ⟨{}⟩

/-- The same options with the supported capacity nearest to the requested one. -/
def Options.withSegmentCapacity (requested : Nat) (options : Options) : Options :=
  { options with
    segmentCapacity := alignCapacity requested
    supported := supportedCapacity_alignCapacity requested }

theorem Options.segmentCapacity_pos (options : Options) : 0 < options.segmentCapacity :=
  Nat.lt_of_lt_of_le (by decide) options.supported.1

end Segmented
