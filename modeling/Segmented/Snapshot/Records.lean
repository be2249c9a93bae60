import Segmented.Snapshot.Transfer

/-! A snapshot as a stream of bytes: four magic bytes, a format version, and records that each
start with their length in four bytes, the lowest first. What is in a record is up to the codecs of
the metadata and of the arrays. -/

namespace Segmented.Records

def magic : List UInt8 := "PVEC".toUTF8.data.toList

def formatVersion : UInt8 := 1

/-- The largest length of a record. -/
def largestRecord : Nat := 1 <<< 32 - 1

/-- The four bytes of a number, the lowest first. -/
def lengthBytes (n : Nat) : List UInt8 :=
  [n.toUInt8, (n >>> 8).toUInt8, (n >>> 16).toUInt8, (n >>> 24).toUInt8]

/-- The number of which these are the bytes, the lowest first. -/
def lengthOf (bytes : List UInt8) : Nat :=
  bytes.foldr (fun byte high => byte.toNat + 256 * high) 0

/-! ### Writing -/

def put (bytes : List UInt8) : Transfer Writer Unit := do
  match ← modifyGet fun writer : Writer => writer.write bytes with
  | .ok () => return ()
  | .error fault => throw (.io fault)

/-- Writes the length of a value's bytes, then the bytes. -/
def putRecord {ρ : Type} [Codec ρ] (value : ρ) : Transfer Writer Unit := do
  match Codec.encode value with
  | .error fault => throw (.codec fault)
  | .ok body =>
    if largestRecord < body.length then
      throw (.invalidFormat (.recordTooLarge body.length))
    else
      put (lengthBytes body.length)
      put body

variable [Codec Metadata]

instance {α : Type} [Codec (Array α)] : Sink Writer α where
  writeMetadata metadata := do
    put magic
    put [formatVersion]
    putRecord metadata
  writeArray _ items := putRecord items

/-! ### Reading -/

/-- Reads exactly `count` bytes. -/
def get (count : Nat) : Transfer Reader (List UInt8) := do
  match ← modifyGet fun reader : Reader => reader.read count with
  | .ok bytes => return bytes
  | .error fault => throw (.io fault)

/-- Reads the length of the next record; the stream may end before it is complete. -/
def getLength : Transfer Reader (Option Nat) := do
  match ← modifyGet fun reader : Reader => reader.read 4 with
  | .ok bytes => return some (lengthOf bytes)
  | .error .ended => return none
  | .error fault => throw (.io fault)

/-- Reads the next record, if the stream has one. -/
def getRecord {ρ : Type} [Codec ρ] : Transfer Reader (Option ρ) := do
  match ← getLength with
  | none => return none
  | some length =>
    match (Codec.decode (← get length) : Except CodecFault ρ) with
    | .ok value => return some value
    | .error fault => throw (.codec fault)

/-- Reads the start of the stream and the metadata. -/
def getMetadata : Transfer Reader Metadata := do
  let header ← get 5
  if header.take 4 ≠ magic then
    throw (.invalidFormat .missingMagic)
  else if header.drop 4 ≠ [formatVersion] then
    throw (.invalidFormat (.unsupportedVersion (lengthOf (header.drop 4))))
  else
    match ← getRecord with
    | none => throw (.invalidFormat .endedBeforeMetadata)
    | some metadata => return metadata

instance {α : Type} [Codec (Array α)] : Source Reader α where
  readMetadata := getMetadata
  readArray _ := getRecord

end Segmented.Records
