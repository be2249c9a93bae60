/-! Writers with limited room and readers that may fail at an offset, as the ends of a byte
stream, and the codecs that give the values in between a byte form. -/

namespace Segmented

/-- What went wrong at an end of a byte stream. -/
inductive IoFault where
  /-- The stream ended before all that was asked for could be read. -/
  | ended
  /-- The reader gave up. -/
  | reader
  /-- There was no room for all that was to be written. -/
  | full
  deriving DecidableEq, Repr

def IoFault.message : IoFault → String
  | .ended => "failed to fill whole buffer"
  | .reader => "reader failed"
  | .full => "failed to write whole buffer"

/-- The bytes written so far, and the room that is left if there is a limit. -/
structure Writer where
  written : Array UInt8 := #[]
  room : Option Nat := none

/-- Writes all of the bytes, or fills what room is left and fails. -/
def Writer.write (bytes : List UInt8) : Writer → Except IoFault Unit × Writer
  | { written, room := none } => (.ok (), { written := written ++ bytes })
  | { written, room := some room } =>
    if bytes.length ≤ room then
      (.ok (), { written := written ++ bytes, room := some (room - bytes.length) })
    else (.error .full, { written := written ++ bytes.take room, room := some 0 })

/-- The bytes still to be read, the number of those already read, and the offset at which reading
fails if there is one. -/
structure Reader where
  rest : List UInt8
  consumed : Nat := 0
  failsAt : Option Nat := none

/-- Of `count` bytes asked for, those that lie before the offset of failure. -/
def Reader.allowed (count : Nat) (reader : Reader) : Nat :=
  match reader.failsAt with
  | none => count
  | some offset => min count (offset - reader.consumed)

/-- What a read meets that does not get all it asked for. -/
def Reader.fault (reader : Reader) : IoFault :=
  match reader.failsAt with
  | none => .ended
  | some offset => if offset ≤ reader.consumed then .reader else .ended

/-- Reads exactly `count` bytes, or takes what is there and fails. -/
def Reader.read (count : Nat) (reader : Reader) : Except IoFault (List UInt8) × Reader :=
  let bytes := reader.rest.take (reader.allowed count)
  let after := { reader with
    rest := reader.rest.drop bytes.length
    consumed := reader.consumed + bytes.length }
  if bytes.length = count then (.ok bytes, after) else (.error after.fault, after)

/-- Why a value has no byte form, or bytes are no form of a value, in the words of a codec. -/
structure CodecFault where
  message : String
  deriving DecidableEq, Repr

/-- A byte form for the values of a type. Either way may fail; bytes behind those of a value are
ignored. -/
class Codec (ρ : Type) where
  encode : ρ → Except CodecFault (List UInt8)
  decode : List UInt8 → Except CodecFault ρ

/-- The byte form of a value leads back to the value. -/
class LawfulCodec (ρ : Type) [Codec ρ] : Prop where
  decode_of_encode {value : ρ} {bytes : List UInt8} :
    Codec.encode value = .ok bytes → Codec.decode bytes = .ok value

end Segmented
