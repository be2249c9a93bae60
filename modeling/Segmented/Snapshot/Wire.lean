import Segmented.Bytes.Varint
import Segmented.Failure
import Segmented.Snapshot.Metadata

/-! The codec that a program runs with: values follow each other without marks between them, so
that a reader has to know what comes next. Snapshots are laid down for any codec. -/

namespace Segmented

/-- A form of values as bytes. Decoding answers the bytes behind the value. -/
class Wire (α : Type) where
  encode : α → Except CodecFault (List UInt8)
  decode : List UInt8 → Except CodecFault (α × List UInt8)

/-- What is encoded decodes again, whatever bytes follow it. -/
class LawfulWire (α : Type) [Wire α] : Prop where
  decode_of_encode {x : α} {bytes : List UInt8} :
    Wire.encode x = .ok bytes → ∀ rest, Wire.decode (bytes ++ rest) = .ok (x, rest)

namespace Wire

variable {α β : Type}

/-- A byte stands for itself. -/
instance : Wire UInt8 where
  encode byte := .ok [byte]
  decode
    | [] => .error Varint.ended
    | byte :: rest => .ok (byte, rest)

instance : LawfulWire UInt8 where
  decode_of_encode encoded _ := by
    cases encoded
    rfl

/-- The whole numbers counted from zero outwards: 0, -1, 1, -2, 2 and so on. -/
def zigzag (n : Int) : Nat := if 0 ≤ n then 2 * n.toNat else 2 * n.natAbs - 1

/-- The number that `zigzag` counts as `n`. -/
def unzigzag (n : Nat) : Int := if n % 2 = 0 then (n / 2 : Nat) else -((n / 2 : Nat) + 1)

instance : Wire Int64 where
  encode n := Varint.encode 64 (zigzag n.toInt)
  decode bytes := do
    let (n, rest) ← Varint.decode 64 bytes
    return (Int64.ofInt (unzigzag n), rest)

/-- The bytes of a text are no UTF-8. -/
def noText : CodecFault where
  message := "Tried to parse invalid utf-8"

/-- A text is the number of its bytes and its bytes. -/
instance : Wire String where
  encode text := do
    let size ← Varint.encode 64 text.utf8ByteSize
    return size ++ text.toUTF8.data.toList
  decode bytes := do
    let (size, rest) ← Varint.decode 64 bytes
    let body := rest.take size
    if body.length < size then .error Varint.ended
    else
      match String.fromUTF8? ⟨body.toArray⟩ with
      | none => .error noText
      | some text => .ok (text, rest.drop size)

instance [Wire α] [Wire β] : Wire (α × β) where
  encode pair := do
    let first ← encode pair.1
    let second ← encode pair.2
    return first ++ second
  decode bytes := do
    let (first, rest) ← decode bytes
    let (second, rest) ← decode rest
    return ((first, second), rest)

/-- Encodes the listed values and appends their bytes. -/
def encodeMany [Wire α] : List α → Array UInt8 → Except CodecFault (List UInt8)
  | [], encoded => .ok encoded.toList
  | x :: rest, encoded => do
    let bytes ← encode x
    encodeMany rest (encoded ++ bytes)

/-- Decodes `count` values and appends them. -/
def decodeMany [Wire α] :
    Nat → Array α → List UInt8 → Except CodecFault (Array α × List UInt8)
  | 0, decoded, bytes => .ok (decoded, bytes)
  | count + 1, decoded, bytes => do
    let (x, rest) ← decode bytes
    decodeMany count (decoded.push x) rest

/-- An array is the number of its elements and its elements. -/
instance [Wire α] : Wire (Array α) where
  encode xs := do
    let count ← Varint.encode 64 xs.size
    encodeMany xs.toList count.toArray
  decode bytes := do
    let (count, rest) ← Varint.decode 64 bytes
    decodeMany count #[] rest

/-- The numbers are 32, 64, 16 and 64 bits wide. -/
instance : Wire Metadata where
  encode metadata := do
    let segmentCapacity ← Varint.encode 32 metadata.segmentCapacity
    let count ← Varint.encode 64 metadata.count
    let version ← Varint.encode 16 metadata.version.toNat
    let segments ← Varint.encode 64 metadata.segments
    return segmentCapacity ++ (count ++ (version ++ segments))
  decode bytes := do
    let (segmentCapacity, rest) ← Varint.decode 32 bytes
    let (count, rest) ← Varint.decode 64 rest
    let (version, rest) ← Varint.decode 16 rest
    let (segments, rest) ← Varint.decode 64 rest
    return ({ segmentCapacity, count, version := version.toUInt16, segments }, rest)

/-- A record is the form of one value. -/
scoped instance [Wire α] : Codec α where
  encode := Wire.encode
  decode bytes := do
    let (x, _) ← Wire.decode bytes
    return x

theorem decodeMany_of_encodeMany [Wire α] [LawfulWire α] {xs : List α} {encoded : Array UInt8}
    {bytes : List UInt8} (done : encodeMany xs encoded = .ok bytes) :
    ∃ later, bytes = encoded.toList ++ later ∧ ∀ (decoded : Array α) (rest : List UInt8),
      decodeMany xs.length decoded (later ++ rest) = .ok (decoded ++ xs.toArray, rest) := by
  induction xs generalizing encoded with
  | nil =>
    cases done
    exact ⟨[], (List.append_nil _).symm, fun decoded rest => by simp [decodeMany]⟩
  | cons x xs ih =>
    obtain ⟨first, opening, remaining⟩ := exists_of_bind done
    obtain ⟨later, rfl, decodes⟩ := ih remaining
    refine ⟨first ++ later, by simp, fun decoded rest => ?_⟩
    have here := LawfulWire.decode_of_encode opening (later ++ rest)
    rw [List.append_assoc, List.length_cons, decodeMany, here]
    refine (decodes (decoded.push x) rest).trans ?_
    simp

instance [Wire α] [LawfulWire α] : LawfulWire (Array α) where
  decode_of_encode {xs bytes} encoded rest := by
    obtain ⟨count, counted, remaining⟩ := exists_of_bind encoded
    obtain ⟨later, rfl, decodes⟩ := decodeMany_of_encodeMany remaining
    have items := decodes #[] rest
    rw [Array.empty_append, Array.length_toList, Array.toArray_toList] at items
    rw [List.append_assoc]
    exact (Varint.decode_bind (by decide) counted _ _).trans items

/-- Metadata whose numbers keep to their widths decodes again. -/
instance : LawfulWire Metadata where
  decode_of_encode {metadata bytes} encoded rest := by
    obtain ⟨capacity, first, encoded⟩ := exists_of_bind encoded
    obtain ⟨count, second, encoded⟩ := exists_of_bind encoded
    obtain ⟨version, third, encoded⟩ := exists_of_bind encoded
    obtain ⟨segments, fourth, encoded⟩ := exists_of_bind encoded
    cases encoded
    have same : metadata.version.toNat.toUInt16 = metadata.version := UInt16.ofNat_toNat
    simp only [List.append_assoc]
    refine (Varint.decode_bind (by decide) first _ _).trans ?_
    refine (Varint.decode_bind (by decide) second _ _).trans ?_
    refine (Varint.decode_bind (by decide) third _ _).trans ?_
    refine (Varint.decode_bind (by decide) fourth _ _).trans ?_
    change Except.ok _ = _
    rw [same]

scoped instance [Wire α] [LawfulWire α] : LawfulCodec α where
  decode_of_encode {x bytes} encoded := by
    have whole := LawfulWire.decode_of_encode encoded []
    rw [List.append_nil] at whole
    change (Wire.decode bytes >>= _) = _
    rw [whole]
    rfl

end Wire

end Segmented
