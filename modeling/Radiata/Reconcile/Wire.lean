import Radiata.Protocol.CborStrict
import Radiata.Reconcile.Fingerprint

/-!
# The reconciliation wire contract

Six message kinds, multiplexed by the lane every message carries.  A body is the
canonical CBOR array of its kind's wire shape; decoding probes the leading kind
with a lenient reader and then decodes the dispatched shape strictly, so the probe
only routes.  The list bounds and the range order are checked on both directions.
-/

namespace Radiata.Reconcile

open Lib.Cbor Protocol

def maxRangesPerMessage : ℕ := 32

def maxRowsPerMessage : ℕ := 64

def reconcileCborLimits : CborLimits := ⟨8, 1024, maxBodyBytes⟩

def kindRoot : UInt8 := 1

def kindHint : UInt8 := 2

def kindOffer : UInt8 := 3

def kindNeed : UInt8 := 4

def kindRows : UInt8 := 5

def kindDone : UInt8 := 6

inductive LaneId where
  | descriptors
  | trust
  | resources
  | tombstones
deriving DecidableEq, Repr

namespace LaneId

def all : List LaneId := [descriptors, trust, resources, tombstones]

def code : LaneId → UInt8
  | descriptors => 1
  | trust => 2
  | resources => 3
  | tombstones => 4

def fromCode (code : UInt8) : Option LaneId := all.find? fun lane => lane.code == code

lemma fromCode_code (lane : LaneId) : fromCode lane.code = some lane := by
  cases lane <;> rfl

lemma code_of_fromCode {code : UInt8} {lane : LaneId} (h : fromCode code = some lane) :
    lane.code = code := by
  simpa using List.find?_some h

end LaneId

structure DigestRange where
  start : UInt64
  stop : UInt64
deriving DecidableEq, Repr

structure RangeFingerprint where
  start : UInt64
  stop : UInt64
  count : UInt64
  xor : UInt64
deriving DecidableEq, Repr

structure Row where
  key : List UInt8
  content : List UInt8
deriving DecidableEq, Repr

inductive Message where
  | root (lane : LaneId) (count xor : UInt64)
  /-- A notice that the sender's rows inside these ranges changed, with the
  piggybacked rows. -/
  | hint (lane : LaneId) (ranges : List RangeFingerprint) (rows : List Row)
  | offer (lane : LaneId) (ranges : List RangeFingerprint)
  | need (lane : LaneId) (bounds : List DigestRange)
  | rows (lane : LaneId) (rows : List Row)
  | done (lane : LaneId) (roundToken : UInt64)
deriving DecidableEq, Repr

def Message.lane : Message → LaneId
  | root lane _ _ | hint lane _ _ | offer lane _ | need lane _ | rows lane _ | done lane _ => lane

/-! ## Wire shapes -/

structure RootWire where
  kind : UInt8
  lane : UInt8
  count : UInt64
  xor : UInt64

structure RangeWire where
  start : UInt64
  stop : UInt64
  count : UInt64
  xor : UInt64

structure BoundWire where
  start : UInt64
  stop : UInt64

structure RowWire where
  key : List UInt8
  content : List UInt8

structure HintWire where
  kind : UInt8
  lane : UInt8
  ranges : List RangeWire
  rows : List RowWire

structure OfferWire where
  kind : UInt8
  lane : UInt8
  ranges : List RangeWire

structure NeedWire where
  kind : UInt8
  lane : UInt8
  bounds : List BoundWire

structure RowsWire where
  kind : UInt8
  lane : UInt8
  rows : List RowWire

structure DoneWire where
  kind : UInt8
  lane : UInt8
  roundToken : UInt64

namespace RootWire

def codec : Codec RootWire :=
  (Codec.array (.cons .u8 (.cons .u8 (.cons .u64 (.last .u64))))).iso
    (fun (kind, lane, count, xor) => ⟨kind, lane, count, xor⟩)
    (fun w => (w.kind, w.lane, w.count, w.xor)) fun _ => rfl

lemma toItem_eq (w : RootWire) :
    codec.toItem w =
      .array [.uint w.kind.toUInt64, .uint w.lane.toUInt64, .uint w.count, .uint w.xor] := rfl

end RootWire

namespace RangeWire

def codec : Codec RangeWire :=
  (Codec.array (.cons .u64 (.cons .u64 (.cons .u64 (.last .u64))))).iso
    (fun (start, stop, count, xor) => ⟨start, stop, count, xor⟩)
    (fun w => (w.start, w.stop, w.count, w.xor)) fun _ => rfl

lemma toItem_eq (w : RangeWire) :
    codec.toItem w = .array [.uint w.start, .uint w.stop, .uint w.count, .uint w.xor] := rfl

end RangeWire

namespace BoundWire

def codec : Codec BoundWire :=
  (Codec.array (.cons .u64 (.last .u64))).iso
    (fun (start, stop) => ⟨start, stop⟩) (fun w => (w.start, w.stop)) fun _ => rfl

lemma toItem_eq (w : BoundWire) :
    codec.toItem w = .array [.uint w.start, .uint w.stop] := rfl

end BoundWire

namespace RowWire

def codec : Codec RowWire :=
  (Codec.array (.cons .byteVec (.last .byteVec))).iso
    (fun (key, content) => ⟨key, content⟩) (fun w => (w.key, w.content)) fun _ => rfl

lemma toItem_eq (w : RowWire) :
    codec.toItem w = .array [.bytes w.key, .bytes w.content] := rfl

end RowWire

namespace HintWire

def codec : Codec HintWire :=
  (Codec.array (.cons .u8 (.cons .u8 (.cons RangeWire.codec.vec (.last RowWire.codec.vec))))).iso
    (fun (kind, lane, ranges, rows) => ⟨kind, lane, ranges, rows⟩)
    (fun w => (w.kind, w.lane, w.ranges, w.rows)) fun _ => rfl

lemma toItem_eq (w : HintWire) :
    codec.toItem w = .array [.uint w.kind.toUInt64, .uint w.lane.toUInt64,
      RangeWire.codec.vec.toItem w.ranges, RowWire.codec.vec.toItem w.rows] := rfl

end HintWire

namespace OfferWire

def codec : Codec OfferWire :=
  (Codec.array (.cons .u8 (.cons .u8 (.last RangeWire.codec.vec)))).iso
    (fun (kind, lane, ranges) => ⟨kind, lane, ranges⟩)
    (fun w => (w.kind, w.lane, w.ranges)) fun _ => rfl

lemma toItem_eq (w : OfferWire) :
    codec.toItem w = .array [.uint w.kind.toUInt64, .uint w.lane.toUInt64,
      RangeWire.codec.vec.toItem w.ranges] := rfl

end OfferWire

namespace NeedWire

def codec : Codec NeedWire :=
  (Codec.array (.cons .u8 (.cons .u8 (.last BoundWire.codec.vec)))).iso
    (fun (kind, lane, bounds) => ⟨kind, lane, bounds⟩)
    (fun w => (w.kind, w.lane, w.bounds)) fun _ => rfl

lemma toItem_eq (w : NeedWire) :
    codec.toItem w = .array [.uint w.kind.toUInt64, .uint w.lane.toUInt64,
      BoundWire.codec.vec.toItem w.bounds] := rfl

end NeedWire

namespace RowsWire

def codec : Codec RowsWire :=
  (Codec.array (.cons .u8 (.cons .u8 (.last RowWire.codec.vec)))).iso
    (fun (kind, lane, rows) => ⟨kind, lane, rows⟩)
    (fun w => (w.kind, w.lane, w.rows)) fun _ => rfl

lemma toItem_eq (w : RowsWire) :
    codec.toItem w = .array [.uint w.kind.toUInt64, .uint w.lane.toUInt64,
      RowWire.codec.vec.toItem w.rows] := rfl

end RowsWire

namespace DoneWire

def codec : Codec DoneWire :=
  (Codec.array (.cons .u8 (.cons .u8 (.last .u64)))).iso
    (fun (kind, lane, roundToken) => ⟨kind, lane, roundToken⟩)
    (fun w => (w.kind, w.lane, w.roundToken)) fun _ => rfl

lemma toItem_eq (w : DoneWire) :
    codec.toItem w = .array [.uint w.kind.toUInt64, .uint w.lane.toUInt64, .uint w.roundToken] :=
      rfl

end DoneWire

/-! ## List policies -/

variable (ranges : List RangeFingerprint)

def checkRanges : Result Unit :=
  if ranges.length > maxRangesPerMessage then throw (.invalidInput "reconcile ranges bound")
  else if ranges.any fun range => decide (range.start > range.stop) then
    throw (.invalidInput "reconcile range order")
  else pure ()

variable (bounds : List DigestRange)

def checkBounds : Result Unit :=
  if bounds.length > maxRangesPerMessage then throw (.invalidInput "reconcile bounds bound")
  else if bounds.any fun bound => decide (bound.start > bound.stop) then
    throw (.invalidInput "reconcile range order")
  else pure ()

def rangesToWire : Result (List RangeWire) := do
  checkRanges ranges
  pure (ranges.map fun range => ⟨range.start, range.stop, range.count, range.xor⟩)

def boundsToWire : Result (List BoundWire) := do
  checkBounds bounds
  pure (bounds.map fun bound => ⟨bound.start, bound.stop⟩)

def rowsToWire (rows : List Row) : Result (List RowWire) :=
  if rows.length > maxRowsPerMessage then throw (.invalidInput "reconcile rows bound")
  else pure (rows.map fun row => ⟨row.key, row.content⟩)

def rowsFromWire (wire : List RowWire) : Result (List Row) :=
  if wire.length > maxRowsPerMessage then throw (.invalidInput "reconcile rows bound")
  else pure (wire.map fun row => ⟨row.key, row.content⟩)

def rangesFromWire (wire : List RangeWire) : Result (List RangeFingerprint) := do
  let ranges : List RangeFingerprint :=
    wire.map fun range => ⟨range.start, range.stop, range.count, range.xor⟩
  checkRanges ranges
  pure ranges

def boundsFromWire (wire : List BoundWire) : Result (List DigestRange) := do
  let bounds : List DigestRange := wire.map fun bound => ⟨bound.start, bound.stop⟩
  checkBounds bounds
  pure bounds

def laneFrom (code : UInt8) : Result LaneId := orInvalid (LaneId.fromCode code) "reconcile lane"

/-! ## Encoding and decoding -/

/-- Encodes one reconciliation message within the limits of its kind. -/
def encode (message : Message) : Result (List UInt8) :=
  let code := message.lane.code
  match message with
  | .root _ count xor =>
    encodeCanonical RootWire.codec ⟨kindRoot, code, count, xor⟩ reconcileCborLimits
  | .hint _ ranges rows => do
      let ranges ← rangesToWire ranges
      let rows ← rowsToWire rows
      encodeCanonical HintWire.codec ⟨kindHint, code, ranges, rows⟩ reconcileCborLimits
  | .offer _ ranges => do
      let ranges ← rangesToWire ranges
      encodeCanonical OfferWire.codec ⟨kindOffer, code, ranges⟩ reconcileCborLimits
  | .need _ bounds => do
      let bounds ← boundsToWire bounds
      encodeCanonical NeedWire.codec ⟨kindNeed, code, bounds⟩ reconcileCborLimits
  | .rows _ rows => do
      let rows ← rowsToWire rows
      encodeCanonical RowsWire.codec ⟨kindRows, code, rows⟩ reconcileCborLimits
  | .done _ roundToken =>
    encodeCanonical DoneWire.codec ⟨kindDone, code, roundToken⟩ reconcileCborLimits

/-- Reads the leading kind integer; the strict decode of the dispatched shape
re-validates every byte. -/
def probeKind (bytes : List UInt8) : Result UInt8 := do
  let (arity, consumed) ← orInvalid (readArray bytes) "reconcile message array"
  let _ ← orInvalid arity "reconcile indefinite array"
  let (kind, _) ← orInvalid (readU64 (bytes.drop consumed)) "reconcile message kind"
  if kind.toNat < 256 then pure (UInt8.ofNat kind.toNat)
  else throw (.invalidInput "reconcile message kind")

/-- Decodes one reconciliation message and checks the limits of its kind. -/
def decode (bytes : List UInt8) : Result Message := do
  let kind ← probeKind bytes
  if kind = kindRoot then do
    let wire ← decodeCanonicalStrict RootWire.codec bytes reconcileCborLimits
      "reconcile root canonical"
    let lane ← laneFrom wire.lane
    pure (.root lane wire.count wire.xor)
  else if kind = kindHint then do
    let wire ← decodeCanonicalStrict HintWire.codec bytes reconcileCborLimits
      "reconcile hint canonical"
    let ranges ← rangesFromWire wire.ranges
    let rows ← rowsFromWire wire.rows
    let lane ← laneFrom wire.lane
    pure (.hint lane ranges rows)
  else if kind = kindOffer then do
    let wire ← decodeCanonicalStrict OfferWire.codec bytes reconcileCborLimits
      "reconcile offer canonical"
    let ranges ← rangesFromWire wire.ranges
    let lane ← laneFrom wire.lane
    pure (.offer lane ranges)
  else if kind = kindNeed then do
    let wire ← decodeCanonicalStrict NeedWire.codec bytes reconcileCborLimits
      "reconcile need canonical"
    let bounds ← boundsFromWire wire.bounds
    let lane ← laneFrom wire.lane
    pure (.need lane bounds)
  else if kind = kindRows then do
    let wire ← decodeCanonicalStrict RowsWire.codec bytes reconcileCborLimits
      "reconcile rows canonical"
    let rows ← rowsFromWire wire.rows
    let lane ← laneFrom wire.lane
    pure (.rows lane rows)
  else if kind = kindDone then do
    let wire ← decodeCanonicalStrict DoneWire.codec bytes reconcileCborLimits
      "reconcile done canonical"
    let lane ← laneFrom wire.lane
    pure (.done lane wire.roundToken)
  else throw (.invalidInput "reconcile message kind")

/-! ## The row-size contract -/

def bstrHeaderLen (len : ℕ) : ℕ :=
  if len < 24 then 1
  else if len < 0x100 then 2
  else if len < 0x10000 then 3
  else if len < 0x100000000 then 5
  else 9

def singleRowMessageLen (keyLen contentLen : ℕ) : ℕ :=
  5 + bstrHeaderLen keyLen + keyLen + bstrHeaderLen contentLen + contentLen

def rowFitsMessage (keyLen contentLen : ℕ) : Bool :=
  decide (singleRowMessageLen keyLen contentLen ≤ maxBodyBytes.toNat)

end Radiata.Reconcile
