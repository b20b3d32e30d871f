import Radiata.Error
import Radiata.Lib.Cbor.Codec
import Radiata.Lib.Word

/-!
# Canonical CBOR bodies

The crate's one canonical encoder and decoder.  The validator is an explicit
stack machine over positions in the body: a frame per open container, each map
frame remembering where its current key started and where its previous key lay.
One turn of the loop reads one item head; completing an item completes every
container it was the last element of.

The loop is given one turn per body byte and one more.  Every turn that does not
fail consumes at least one byte, so the last turn, if it is reached, finds the
input exhausted, and running out of turns is the same failure.
-/

namespace Radiata.Protocol

open Lib.Cbor

structure CborLimits where
  maxDepth : UInt64
  maxCollectionItems : UInt64
  maxBodyLen : UInt64

def maxBodyBytes : UInt64 := 65536

def controlCborLimits : CborLimits := ⟨16, 1024, maxBodyBytes⟩

inductive ContainerFrame where
  | array (remaining : ℕ)
  | map (remaining : ℕ) (expectingKey : Bool) (keyStart : Option ℕ)
      (previousKey : Option (ℕ × ℕ))
deriving DecidableEq, Repr

namespace ContainerFrame

def remaining : ContainerFrame → ℕ
  | array remaining => remaining
  | map remaining _ _ _ => remaining

end ContainerFrame

variable (bytes : List UInt8)

def slice (start stop : ℕ) : Option (List UInt8) :=
  if start ≤ stop ∧ stop ≤ bytes.length then some ((bytes.take stop).drop start) else none

def readFixed (length : ℕ) (bytes : List UInt8) (start : ℕ) : Result (List UInt8) :=
  orInvalid (slice bytes (start + 1) (start + 1 + length)) "CBOR header"

variable (start : ℕ)

/-- The argument of the header at `start` in the width its initial byte announces,
with the header's length. -/
def headerArgument : Result (ℕ × ℕ) := do
  let initial ← orInvalid bytes[start]? "CBOR header"
  let additional := initial.toNat % 32
  if additional ≤ 23 then pure (additional, 1)
  else if additional = 24 then do pure (beValue (← readFixed 1 bytes start), 2)
  else if additional = 25 then do pure (beValue (← readFixed 2 bytes start), 3)
  else if additional = 26 then do pure (beValue (← readFixed 4 bytes start), 5)
  else if additional = 27 then do pure (beValue (← readFixed 8 bytes start), 9)
  else throw (.invalidInput "CBOR indefinite length")

/-- The argument of the header at `start`, refused unless it is in its shortest
form, with the header's length. -/
def canonicalArgument : Result (ℕ × ℕ) := do
  let (value, headerLen) ← headerArgument bytes start
  let canonicalLen :=
    if value < 24 then 1
    else if value < 2 ^ 8 then 2
    else if value < 2 ^ 16 then 3
    else if value < 2 ^ 32 then 5
    else 9
  if headerLen ≠ canonicalLen then throw (.invalidInput "CBOR non-shortest argument")
  else pure (value, headerLen)

def validateContainerDepth (depth : ℕ) (limits : CborLimits) : Result Unit :=
  if depth ≥ limits.maxDepth.toNat then throw (.invalidInput "CBOR nesting depth") else pure ()

def validateSizedItem (start stop headerLen valueLen : ℕ) : Result Unit :=
  if stop - start ≠ headerLen + valueLen then throw (.invalidInput "CBOR item length")
  else pure ()

def validateString (read : List UInt8 → Option (List UInt8 × ℕ)) (context : String) : Result ℕ := do
  let (length, headerLen) ← canonicalArgument bytes start
  let (_, consumed) ← orInvalid (read (bytes.drop start)) context
  validateSizedItem start (start + consumed) headerLen length
  pure (start + consumed)

variable (limits : CborLimits)

/-- The head of a container at `start`: its count and the position after the
header. -/
def validateContainer (depth start : ℕ)
    (read : List UInt8 → Option (Option ℕ × ℕ)) (context indefinite length : String) :
    Result (ℕ × ℕ) := do
  validateContainerDepth depth limits
  let (count, _) ← canonicalArgument bytes start
  let (decoded, consumed) ← orInvalid (read (bytes.drop start)) context
  let decoded ← orInvalid decoded indefinite
  if decoded ≠ count ∨ count > limits.maxCollectionItems.toNat then
    throw (.invalidInput length)
  else pure (count, start + consumed)

/-- One item head at `start`: the frame it opens, if it is a container, and the
position after it. -/
def validateHead (depth start : ℕ) : Result (Option ContainerFrame × ℕ) := do
  let dataType ← orInvalid (datatype (bytes.drop start)) "CBOR type"
  match dataType with
  | .u8 | .u16 | .u32 | .u64 | .i8 | .i16 | .i32 | .i64 | .int => do
      let (_, headerLen) ← canonicalArgument bytes start
      let consumed ← orInvalid (skipInteger (bytes.drop start)) "CBOR integer"
      if consumed ≠ headerLen then throw (.invalidInput "CBOR integer")
      else pure (none, start + consumed)
  | .bytes => do
      let stop ← validateString bytes start readBytes "CBOR bytes"
      pure (none, stop)
  | .string => do
      let stop ← validateString bytes start readStr "CBOR string"
      pure (none, stop)
  | .array => do
      let (length, stop) ← validateContainer bytes limits depth start readArray
        "CBOR array" "CBOR indefinite array" "CBOR array length"
      pure (some (.array length), stop)
  | .map => do
      let (length, stop) ← validateContainer bytes limits depth start readMap
        "CBOR map" "CBOR indefinite map" "CBOR map length"
      pure (some (.map length true none none), stop)
  | .bool => do
      let (_, consumed) ← orInvalid (readBool (bytes.drop start)) "CBOR bool"
      pure (none, start + consumed)
  | .null => do
      let consumed ← orInvalid (readNull (bytes.drop start)) "CBOR null"
      pure (none, start + consumed)
  | .undefined | .f16 | .f32 | .f64 | .simple | .bytesIndef | .stringIndef | .arrayIndef
  | .mapIndef | .tag | .stop | .unknown _ => throw (.invalidInput "CBOR unsupported type")

def checkKeyOrder (bytes key : List UInt8) : Option (ℕ × ℕ) → Result Unit
  | none => pure ()
  | some (start, stop) => do
      let previous ← orInvalid (slice bytes start stop) "CBOR map key"
      if previous ≥ key then throw (.invalidInput "CBOR map key order") else pure ()

/-- An item ended at `position`: count it in its container, and complete every
container it was the last element of.  Returns whether the outermost item is
complete, with the frames that stay open. -/
def completeItem (position : ℕ) (bytes : List UInt8) :
    List ContainerFrame → Result (Bool × List ContainerFrame)
  | [] => pure (true, [])
  | .array 0 :: _ => throw (.invalidInput "CBOR array state")
  | .array (remaining + 1) :: stack =>
    if remaining = 0 then completeItem position bytes stack
    else pure (false, .array remaining :: stack)
  | .map remaining true keyStart previousKey :: stack => do
      let start ← orInvalid keyStart "CBOR map key state"
      let key ← orInvalid (slice bytes start position) "CBOR map key"
      checkKeyOrder bytes key previousKey
      pure (false, .map remaining false none (some (start, position)) :: stack)
  | .map 0 false _ _ :: _ => throw (.invalidInput "CBOR map state")
  | .map (remaining + 1) false keyStart previousKey :: stack =>
    if remaining = 0 then completeItem position bytes stack
    else pure (false, .map remaining true keyStart previousKey :: stack)

def markKeyStart (position : ℕ) : List ContainerFrame → List ContainerFrame
  | .map remaining true none previousKey :: stack =>
    .map remaining true (some position) previousKey :: stack
  | stack => stack

def validateLoop (bytes : List UInt8) (limits : CborLimits) :
    ℕ → ℕ → List ContainerFrame → Result ℕ
  | 0, _, _ => throw (.invalidInput "CBOR type")
  | fuel + 1, position, stack => do
      let stack := markKeyStart position stack
      let (container, position) ← validateHead bytes limits stack.length position
      match container with
      | some frame =>
        if frame.remaining ≠ 0 then validateLoop bytes limits fuel position (frame :: stack)
        else do
          let (complete, stack) ← completeItem position bytes stack
          if complete then pure position else validateLoop bytes limits fuel position stack
      | none => do
          let (complete, stack) ← completeItem position bytes stack
          if complete then pure position else validateLoop bytes limits fuel position stack

def validateItem : Result ℕ :=
  validateLoop bytes limits (bytes.length + 1) 0 []

def validateCanonical : Result Unit := do
  if limits.maxDepth = 0 ∨ limits.maxCollectionItems = 0 ∨ limits.maxBodyLen = 0 ∨
      bytes.isEmpty ∨ bytes.length > limits.maxBodyLen.toNat then
    throw (.invalidInput "CBOR limits")
  let position ← validateItem bytes limits
  if position ≠ bytes.length then throw (.invalidInput "CBOR trailing data")
  else pure ()

/-! ## Typed bodies -/

section Typed

variable {α : Type} (codec : Codec α)

/-- Encodes a value.  The writer refuses to grow past the body limit, so a value
whose encoding is longer fails before it is validated. -/
def encodeCanonical (value : α) (limits : CborLimits) : Result (List UInt8) := do
  let bytes := (codec.toItem value).encode
  if bytes.length > limits.maxBodyLen.toNat then throw (.invalidInput "CBOR encode")
  validateCanonical bytes limits
  pure bytes

def decodeCanonical (bytes : List UInt8) (limits : CborLimits) : Result α := do
  validateCanonical bytes limits
  let (value, rest) ← orInvalid (codec.parse bytes) "CBOR decode"
  if rest ≠ [] then throw (.invalidInput "CBOR trailing data")
  pure value

def decodeCanonicalStrict (bytes : List UInt8) (limits : CborLimits) (canonicalContext : String)
    : Result α := do
  let value ← decodeCanonical codec bytes limits
  let encoded ← encodeCanonical codec value limits
  if encoded ≠ bytes then throw (.invalidInput canonicalContext)
  pure value

end Typed

end Radiata.Protocol
