import Mathlib.Analysis.SpecialFunctions.Log.Base
import Segmented.Proofs.RoundTrip

/-! Requested segment capacities go to the nearest power of two on the logarithmic scale. The whole
arithmetic that finds it does what rounding the real logarithm does, and what comes of it are
exactly the capacities that a snapshot may state. -/

namespace Segmented

/-! ### The nearest exponent -/

/-- Rounding a binary logarithm is halving that of twice the square. -/
theorem round_logb_two {requested : Nat} (positive : 0 < requested) :
    round (Real.logb 2 requested) = ((2 * requested * requested).log2 / 2 : Nat) := by
  have nonzero : (requested : ℝ) ≠ 0 := Nat.cast_ne_zero.mpr (Nat.ne_of_gt positive)
  have doubled : Real.logb 2 requested + 1 / 2 =
      Real.logb (2 : Nat) ((2 * requested * requested : Nat) : ℝ) / (2 : Nat) := by
    push_cast
    rw [Real.logb_mul (mul_ne_zero two_ne_zero nonzero) nonzero,
      Real.logb_mul two_ne_zero nonzero, Real.logb_self_eq_one one_lt_two]
    ring
  rw [round_eq, doubled, Int.floor_div_natCast, Real.floor_logb_natCast (Nat.cast_nonneg _),
    Int.log_natCast, ← Nat.log2_eq_log_two]
  rfl

/-- The whole numbers on either side of half a logarithm. -/
theorem log2_half_eq_iff {n : Nat} (positive : 0 < n) (exponent : Nat) :
    n.log2 / 2 = exponent ↔ 2 ^ (2 * exponent) ≤ n ∧ n < 2 ^ (2 * exponent + 2) := by
  have nonzero := Nat.ne_of_gt positive
  rw [← Nat.le_log2 nonzero, ← Nat.log2_lt nonzero]
  omega

theorem alignExponent_mono : Monotone alignExponent := by
  intro requested larger least
  have squares : 2 * requested * requested ≤ 2 * larger * larger :=
    Nat.mul_le_mul (Nat.mul_le_mul_left 2 least) least
  have logarithms : (2 * requested * requested).log2 ≤ (2 * larger * larger).log2 := by
    rw [Nat.log2_eq_log_two, Nat.log2_eq_log_two]
    exact Nat.log_mono_right squares
  unfold alignExponent
  omega

theorem alignCapacity_eq_two_pow (requested : Nat) :
    alignCapacity requested = 2 ^ alignExponent requested :=
  Nat.one_shiftLeft _

theorem alignCapacity_mono : Monotone alignCapacity := by
  intro requested larger least
  rw [alignCapacity_eq_two_pow, alignCapacity_eq_two_pow]
  exact Nat.pow_le_pow_right Nat.two_pos (alignExponent_mono least)

/-- The bounds on the exponent are bounds on the power. -/
theorem alignCapacity_eq_clamp (requested : Nat) :
    alignCapacity requested =
      max 16 (min (2 ^ 20) (2 ^ ((2 * requested * requested).log2 / 2))) := by
  have powers : Monotone fun exponent : Nat => 2 ^ exponent :=
    fun _ _ least => Nat.pow_le_pow_right Nat.two_pos least
  rw [alignCapacity_eq_two_pow, alignExponent, powers.map_max, powers.map_min]
  rfl

/-- A supported capacity is its own nearest one. -/
theorem alignCapacity_of_supported {capacity : Nat} (supported : SupportedCapacity capacity) :
    alignCapacity capacity = capacity := by
  obtain ⟨least, most, power⟩ := supported
  rw [Nat.one_shiftLeft] at power
  have square : 2 * capacity * capacity = 2 ^ (2 * capacity.log2 + 1) := by
    conv_lhs => rw [← power]
    ring
  rw [alignCapacity_eq_clamp, square, Nat.log2_two_pow, Nat.mul_add_div Nat.two_pos]
  have most' : capacity ≤ 2 ^ 20 := most
  change max 16 (min _ (2 ^ (capacity.log2 + 0))) = capacity
  rw [Nat.add_zero, power]
  omega

/-- The capacities that requests of 64 bits can come to. -/
theorem supportedCapacity_iff (capacity : Nat) :
    SupportedCapacity capacity ↔ ∃ requested < 2 ^ 64, alignCapacity requested = capacity := by
  constructor
  · intro supported
    have most : capacity ≤ 2 ^ 20 := supported.2.1
    exact ⟨capacity, Nat.lt_of_le_of_lt most (by decide), alignCapacity_of_supported supported⟩
  · rintro ⟨requested, -, rfl⟩
    exact supportedCapacity_alignCapacity requested

/-! ### The logarithm itself -/

/-- A one in a word of 64 bits, moved up by so many places, if the word has as many. -/
def Word.single? (distance : Nat) : Option Nat :=
  if distance < 64 then some (1 <<< distance) else none

/-- The power of two whose exponent is the rounded binary logarithm, within the bounds of a segment;
a power that is beyond the word counts as too large. -/
noncomputable def logarithmicCapacity (requested : Nat) : Nat :=
  if requested = 0 then 16
  else
    let exponent := (round (Real.logb 2 requested)).toNat
    max 16 (min (2 ^ 20) ((Word.single? exponent).getD (2 ^ 20)))

theorem alignCapacity_eq_logarithmicCapacity (requested : Nat) :
    alignCapacity requested = logarithmicCapacity requested := by
  unfold logarithmicCapacity
  split
  · rename_i zero
    subst zero
    decide
  · rename_i some
    rw [round_logb_two (Nat.pos_of_ne_zero some), Int.toNat_natCast, alignCapacity_eq_clamp]
    generalize (2 * requested * requested).log2 / 2 = exponent
    unfold Word.single?
    dsimp only
    split
    · rw [Option.getD_some, Nat.one_shiftLeft]
    · rename_i beyond
      have larger : 2 ^ 20 ≤ 2 ^ exponent := Nat.pow_le_pow_right Nat.two_pos (by omega)
      rw [Option.getD_none, Nat.min_eq_left larger, Nat.min_self]

/-- The supported power of two that is nearest to a request on the logarithmic scale. -/
structure Nearest (requested capacity : Nat) : Prop where
  power : ∃ exponent, capacity = 2 ^ exponent
  least : 16 ≤ capacity
  most : capacity ≤ 2 ^ 20
  exponent : 0 < requested → ∃ exponent, 2 ^ (2 * exponent) ≤ 2 * requested ^ 2 ∧
    2 * requested ^ 2 < 2 ^ (2 * exponent + 2) ∧ capacity = max 16 (min (2 ^ 20) (2 ^ exponent))

theorem nearest_alignCapacity (requested : Nat) : Nearest requested (alignCapacity requested) := by
  obtain ⟨least, most, -⟩ := supportedCapacity_alignCapacity requested
  refine ⟨⟨_, alignCapacity_eq_two_pow requested⟩, least, most, ?_⟩
  intro positive
  have square : 2 * requested ^ 2 = 2 * requested * requested := by ring
  have some : 0 < 2 * requested * requested :=
    Nat.mul_pos (Nat.mul_pos Nat.two_pos positive) positive
  obtain ⟨below, above⟩ := (log2_half_eq_iff some _).mp rfl
  rw [square]
  exact ⟨_, below, above, alignCapacity_eq_clamp requested⟩

/-! ### Stated capacities -/

/-- A reader that accepts a capacity may as well align it once more. -/
theorem Metadata.options_eq_ok_iff (metadata : Metadata) (options : Options) :
    metadata.options = .ok options ↔ SupportedCapacity metadata.segmentCapacity ∧
      options = (default : Options).withSegmentCapacity metadata.segmentCapacity := by
  unfold Metadata.options
  split
  · rename_i supported
    have aligned : ({ segmentCapacity := metadata.segmentCapacity, supported } : Options) =
        (default : Options).withSegmentCapacity metadata.segmentCapacity := by
      simp only [Options.withSegmentCapacity, alignCapacity_of_supported supported]
      rfl
    rw [aligned, Except.ok.injEq, eq_comm]
    exact (and_iff_right supported).symm
  · rename_i unsupported
    constructor
    · intro refused
      cases refused
    · intro accepted
      exact absurd accepted.1 unsupported

variable {σ τ ω α : Type}

theorem Sequence.Valid.metadata_congr {s t : Sequence α} (valid : s.Valid) (valid' : t.Valid)
    (length : t.length = s.length)
    (capacity : t.options.segmentCapacity = s.options.segmentCapacity)
    (version : t.version = s.version) : t.metadata = s.metadata := by
  rw [metadata, metadata, length, capacity, version,
    valid.segmentCount_congr valid' length capacity]

/-- Whatever arrays come with it, a sequence restored by the metadata of another has them. -/
theorem Snapshot.metadata_of_restored [Allocator σ α] [LawfulAllocator σ α] [Inhabited α]
    [reader : Source ω α] {s t : Sequence α} (valid : s.Valid) {source source' : ω}
    (stated : reader.readMetadata.run.run source = (.ok s.metadata, source')) (depot : Depot σ)
    (sound : LawfulAllocator.Sound depot.allocator)
    (restored : ((restore source).run depot).1.1 = .ok t) : t.metadata = s.metadata := by
  obtain ⟨options, capacity, outcome⟩ := exists_outcome valid stated depot sound
  split at outcome
  · rw [outcome] at restored
    cases restored
  · obtain ⟨t', run, made, version, -⟩ := outcome
    rw [run] at restored
    cases restored
    exact valid.metadata_congr made.valid made.length (by rw [made.options, capacity]) version

namespace Sequence

variable [Allocator τ α] [LawfulAllocator τ α] [BEq α] [Inhabited α]

/-- A request for a segment capacity is rounded as its logarithm is, over all requests and not only
those of 64 bits; larger requests never come to less, and what a request comes to is left as it is.
A snapshot may state exactly these capacities, so that the metadata of every sequence are accepted,
and whatever is restored by them has the same metadata. -/
theorem capacities_align :
    (∀ (options : Options) (requested : Nat),
      (options.withSegmentCapacity requested).segmentCapacity = logarithmicCapacity requested ∧
        Nearest requested (logarithmicCapacity requested)) ∧
    Monotone logarithmicCapacity ∧
    (∀ requested, logarithmicCapacity (logarithmicCapacity requested) =
      logarithmicCapacity requested) ∧
    (∀ (metadata : Metadata) (options : Options), metadata.options = .ok options ↔
      (∃ requested < 2 ^ 64, logarithmicCapacity requested = metadata.segmentCapacity) ∧
        options = (default : Options).withSegmentCapacity metadata.segmentCapacity) ∧
    ∀ s : Sequence α, s.Reachable →
      (∃ options, s.metadata.options = .ok options ∧
        options.segmentCapacity = s.options.segmentCapacity) ∧
      (∀ (store : Store α) (depot : Depot σ) (depot' : Depot τ),
        LawfulAllocator.Sound depot'.allocator → ∃ full t,
          ((Snapshot.save s store).run depot).1 = (.ok (), full) ∧
            ((Snapshot.restore full).run depot').1 = (.ok t, full) ∧ t.metadata = s.metadata) ∧
      ∀ (ω : Type) [reader : Source ω α] (source source' : ω) (depot : Depot τ) (t : Sequence α),
        LawfulAllocator.Sound depot.allocator →
          reader.readMetadata.run.run source = (.ok s.metadata, source') →
            ((Snapshot.restore source).run depot).1.1 = .ok t → t.metadata = s.metadata := by
  have same : logarithmicCapacity = alignCapacity :=
    funext fun requested => (alignCapacity_eq_logarithmicCapacity requested).symm
  rw [same]
  refine ⟨?_, alignCapacity_mono, ?_, ?_, ?_⟩
  · intro options requested
    exact ⟨rfl, nearest_alignCapacity requested⟩
  · intro requested
    exact alignCapacity_of_supported (supportedCapacity_alignCapacity requested)
  · intro metadata options
    rw [metadata.options_eq_ok_iff, supportedCapacity_iff]
  · intro s reachable
    have valid := reachable.valid
    refine ⟨⟨_, dif_pos s.options.supported, rfl⟩, ?_, ?_⟩
    · intro store depot depot' sound
      obtain ⟨full, t, saved, restored, mirrors⟩ :=
        Snapshot.exists_restored_from_store valid store depot depot' sound
      have valid' : t.Valid :=
        (Reachable.restore full depot' sound (congrArg Prod.fst restored)).valid
      have length : t.length = s.length := by
        rw [valid'.length_eq, valid.length_eq, toList, toList, mirrors.elements]
      exact ⟨full, t, saved, restored,
        valid.metadata_congr valid' length mirrors.capacity mirrors.version⟩
    · intro ω reader source source' depot t sound stated restored
      exact Snapshot.metadata_of_restored valid stated depot sound restored

/-- A request for a thousand elements comes to 1024, and a sequence with such segments says so in
its snapshots. -/
theorem capacities_align_at_thousand :
    let options := (default : Options).withSegmentCapacity 1000
    let depot : Depot (Heap Nat) := { allocator := ⟨⟩ }
    let s : Sequence Nat := (((Edit.push 7).apply (withCapacity 0 options)).run depot).1.2
    s.Reachable ∧ logarithmicCapacity 1000 = 1024 ∧
      (∃ accepted, s.metadata.options = .ok accepted ∧ accepted.segmentCapacity = 1024) ∧
      ∃ full t, ((Snapshot.save s ({} : Store Nat)).run depot).1 = (.ok (), full) ∧
        ((Snapshot.restore full).run depot).1 = (.ok t, full) ∧ t.metadata = s.metadata := by
  intro options depot s
  have reachable : s.Reachable := .edit _ _ trivial (.withCapacity 0 _)
  obtain ⟨nearest, -, -, -, kept⟩ := capacities_align (σ := Heap Nat) (τ := Heap Nat) (α := Nat)
  obtain ⟨⟨accepted, stated, capacity⟩, restored, -⟩ := kept s reachable
  have thousand : logarithmicCapacity 1000 = 1024 := (nearest default 1000).1.symm.trans rfl
  have stored : s.options.segmentCapacity = 1024 := by decide +kernel
  exact ⟨reachable, thousand, ⟨accepted, stated, capacity.trans stored⟩,
    restored {} depot depot trivial⟩

end Sequence

end Segmented
