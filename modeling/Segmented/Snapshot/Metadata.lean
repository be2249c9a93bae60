import Segmented.Bytes.Stream
import Segmented.Sequence

/-! What a snapshot says about a sequence before its elements, and the ways in which a snapshot
can be unusable. -/

namespace Segmented

/-- The first record of a snapshot. -/
structure Metadata where
  segmentCapacity : Nat
  count : Nat
  version : UInt16
  /-- The number of arrays that follow; an empty sequence has one, without elements. -/
  segments : Nat
  deriving DecidableEq, Repr

/-- The metadata of a sequence as it is. -/
def Sequence.metadata {α : Type} (s : Sequence α) : Metadata where
  segmentCapacity := s.options.segmentCapacity
  count := s.length
  version := s.version
  segments := max s.segmentCount 1

/-- How a snapshot contradicts its format. -/
inductive FormatFault where
  | missingMagic
  | unsupportedVersion (version : Nat)
  | endedBeforeMetadata
  | unsupportedCapacity (capacity : Nat)
  | segmentMismatch (declared count needed : Nat)
  | noMetadata
  | outOfOrder (index : Nat)
  | recordTooLarge (size : Nat)
  /-- Any other contradiction, in the words of a source or sink of one's own. -/
  | described (text : String)
  deriving DecidableEq, Repr

def FormatFault.message : FormatFault → String
  | .missingMagic => "missing PVEC magic bytes"
  | .unsupportedVersion version => s!"unsupported stream version {version}"
  | .endedBeforeMetadata => "stream ended before metadata"
  | .unsupportedCapacity capacity =>
    s!"segment capacity {capacity} is not a supported power of two"
  | .segmentMismatch declared count needed =>
    s!"{declared} segments declared, {count} elements need {needed}"
  | .noMetadata => "no metadata stored"
  | .outOfOrder index => s!"array {index} written out of order"
  | .recordTooLarge size => s!"record of {size} bytes is too large"
  | .described text => text

/-- Why a snapshot could not be written or read. -/
inductive SnapshotError where
  | codec (fault : CodecFault)
  | io (fault : IoFault)
  /-- There is no array of the given index. -/
  | missingArray (index : Nat)
  /-- The array of the given index is shorter than its segment. -/
  | undersizedArray (index expected actual : Nat)
  | invalidFormat (fault : FormatFault)
  deriving DecidableEq, Repr

def SnapshotError.message : SnapshotError → String
  | .codec fault => "Postcard serialization error: " ++ fault.message
  | .io fault => "IO error: " ++ fault.message
  | .missingArray index => s!"segment array {index} is missing"
  | .undersizedArray index expected actual =>
    s!"segment array {index} holds {actual} elements, expected at least {expected}"
  | .invalidFormat fault => "Invalid snapshot format: " ++ fault.message

/-- The options of a sequence with the stated segment capacity, if that is supported. -/
def Metadata.options (metadata : Metadata) : Except SnapshotError Options :=
  if supported : SupportedCapacity metadata.segmentCapacity then
    .ok { segmentCapacity := metadata.segmentCapacity, supported }
  else .error (.invalidFormat (.unsupportedCapacity metadata.segmentCapacity))

end Segmented
