import Radiata.Lib.Checked
import Radiata.Membership.Descriptor

/-!
# Node descriptors on the wire

A descriptor is written in its current shape, with the labels, and read in that shape or in the
previous one, without them.  What a row reads as need not encode back to the row: a row of the
previous shape is written in the current one, and an endpoint or a label key is written in its
canonical spelling.  A descriptor that was encoded is read back, and that is all the register
needs of the format.
-/

namespace Radiata.Membership

open Lib Lib.Cbor Protocol Identity

structure EndpointSyntax where
  Endpoint : Type
  parse : Text → Result Endpoint
  text : Endpoint → Text
  parse_text : ∀ endpoint, parse (text endpoint) = .ok endpoint

structure LawfulFormat extends DescriptorFormat where
  decode_encode : ∀ {descriptor bytes}, encode descriptor = .ok bytes → decode bytes =
    .ok descriptor

variable (endpoints : EndpointSyntax)

structure NodeDescriptorV1 where
  node : NodeId
  publicKey : PublicKey
  endpoints : List endpoints.Endpoint
  labels : LabelSet
  revision : UInt64

structure DescriptorFields where
  schema : Text
  recordVersion : UInt16
  node : Text
  publicKey : List UInt8
  endpoints : List Text
  revision : UInt64
  version : UInt16

def labelPairCodec : Codec (Text × Text) := .array (.cons .chars (.last .chars))

def descriptorWireCodec : Codec (DescriptorFields × List (Text × Text)) :=
  (Codec.array (.cons .chars (.cons .u16 (.cons .chars (.cons .byteVec (.cons (.vec .chars)
    (.cons .u64 (.cons .u16 (.last (.vec labelPairCodec)))))))))).iso
    (fun (schema, recordVersion, node, publicKey, endpoints, revision, version, labels) =>
      (⟨schema, recordVersion, node, publicKey, endpoints, revision, version⟩, labels))
    (fun (w, labels) => (w.schema, w.recordVersion, w.node, w.publicKey, w.endpoints, w.revision,
      w.version, labels))
    fun _ => rfl

def descriptorWireV1Codec : Codec DescriptorFields :=
  (Codec.array (.cons .chars (.cons .u16 (.cons .chars (.cons .byteVec (.cons (.vec .chars)
    (.cons .u64 (.last .u16)))))))).iso
    (fun (schema, recordVersion, node, publicKey, endpoints, revision, version) =>
      ⟨schema, recordVersion, node, publicKey, endpoints, revision, version⟩)
    (fun w => (w.schema, w.recordVersion, w.node, w.publicKey, w.endpoints, w.revision, w.version))
    fun _ => rfl

def nodeDescriptorSchema : Text := "radiata.woooo.tech/schemas/v1/node-descriptor".toList

def decodeLabels : Option Text → LabelSet → List (Text × Text) → Result LabelSet
  | _, labels, [] => .ok labels
  | previous, labels, (keyText, valueText) :: rest => do
      require (∀ earlier ∈ previous, earlier < keyText)
        (.invalidInput "node descriptor label order")
      let key ← Checked.replaceError (LabelKey.parse keyText)
          (.invalidInput "node descriptor label")
      let value ← Checked.replaceError (LabelValue.parse valueText)
        (.invalidInput "node descriptor label value")
      let labels ← labels.insert key value
      decodeLabels (some keyText) labels rest

namespace NodeDescriptorV1

variable {endpoints} (descriptor : NodeDescriptorV1 endpoints)

def wire : DescriptorFields × List (Text × Text) :=
  (⟨nodeDescriptorSchema, 2, descriptor.node.text, descriptor.publicKey.1,
    descriptor.endpoints.map endpoints.text, descriptor.revision, 1⟩, descriptor.labels.pairs)

def encode : Result (List UInt8) :=
  encodeCanonical descriptorWireCodec descriptor.wire controlCborLimits

variable (endpoints)

def decodeWire (fields : DescriptorFields) (labels : Option (List (Text × Text))) :
    Result (NodeDescriptorV1 endpoints) := do
  require (fields.schema = nodeDescriptorSchema ∧
    (fields.recordVersion = 1 ∨ fields.recordVersion = 2)) (.invalidInput "node descriptor schema")
  require (fields.version = 1) (.invalidInput "node descriptor version")
  require (decide (fields.recordVersion = 2) = labels.isSome)
    (.invalidInput "node descriptor version")
  let node ← Checked.replaceError (NodeId.parse fields.node) (.invalidInput "node descriptor node")
  let publicKey ← fixedBytes 32 fields.publicKey "node descriptor key"
  let parsed ← fields.endpoints.mapM fun text =>
    Checked.replaceError (endpoints.parse text) (.invalidInput "node descriptor endpoint")
  let labels ← decodeLabels none .new (labels.getD [])
  pure ⟨node, publicKey, parsed, labels, fields.revision⟩

/-- Reads a descriptor: in the current shape if that is what the bytes are, otherwise in the
previous one. -/
def decode (bytes : List UInt8) : Result (NodeDescriptorV1 endpoints) :=
  match decodeCanonicalStrict descriptorWireCodec bytes controlCborLimits "" with
  | .ok (fields, labels) => decodeWire endpoints fields (some labels)
  | .error _ => do
      let fields ← Checked.replaceError
          (decodeCanonical descriptorWireV1Codec bytes controlCborLimits)
        (.invalidInput "node descriptor decode")
      require ((encodeCanonical descriptorWireV1Codec fields controlCborLimits).toOption =
        some bytes)
        (.invalidInput "node descriptor canonical")
      decodeWire endpoints fields none

variable {endpoints}

/-- Pairs that make a label set in ascending key order are read back as that set. -/
theorem decodeLabels_of_ofPairs {previous : Option Text} {labels next : LabelSet}
    {pairs : List (Text × Text)} (h : labels.ofPairs pairs = .ok next)
    (hprevious : ∀ earlier ∈ previous, ∀ pair ∈ pairs, earlier < pair.1)
    (hasc : pairs.Pairwise fun a b => a.1 < b.1) : decodeLabels previous labels pairs =
      .ok next := by
  induction pairs generalizing previous labels with
  | nil => exact h
  | cons pair pairs ih =>
    obtain ⟨hfirst, hrest⟩ := List.pairwise_cons.mp hasc
    obtain ⟨key, hkey, h⟩ := bind_eq_ok.mp h
    obtain ⟨value, hvalue, h⟩ := bind_eq_ok.mp h
    obtain ⟨mid, hmid, h⟩ := bind_eq_ok.mp h
    have horder : ∀ earlier ∈ previous, earlier < pair.1 := fun earlier hearlier =>
      hprevious earlier hearlier _ List.mem_cons_self
    rw [decodeLabels, require, if_pos horder, ok_bind, hkey, hvalue]
    simp only [Checked.replaceError, ok_bind, hmid]
    refine ih h (fun earlier hearlier later hlater => ?_) hrest
    rw [← Option.mem_some_iff.mp hearlier]
    exact hfirst later hlater

lemma decodeLabels_pairs (labels : LabelSet) : decodeLabels none .new labels.pairs = .ok labels :=
  decodeLabels_of_ofPairs labels.ofPairs_pairs (by simp)
    (List.pairwise_map.mpr labels.entries.ascending)

lemma decodeWire_wire (descriptor : NodeDescriptorV1 endpoints) :
    decodeWire endpoints descriptor.wire.1 (some descriptor.wire.2) = .ok descriptor := by
  have hnode : NodeId.parse descriptor.node.text = .ok descriptor.node :=
    descriptor.node.parse_text _
  have hkey : fixedBytes 32 descriptor.publicKey.1 "node descriptor key" =
      .ok descriptor.publicKey :=
    dif_pos descriptor.publicKey.2
  have hendpoints : ((descriptor.endpoints.map endpoints.text).mapM fun text =>
      Checked.replaceError (endpoints.parse text) (Error.invalidInput "node descriptor endpoint")) =
      .ok descriptor.endpoints :=
    Checked.mapM_map_eq_ok (fun endpoint => by rw [endpoints.parse_text]; rfl) _
  simp only [decodeWire, wire, require, true_and, or_true, if_true, decide_true, Option.isSome_some,
    ok_bind, hnode, hkey, hendpoints, Option.getD_some, decodeLabels_pairs]
  rfl

lemma decode_encode {descriptor : NodeDescriptorV1 endpoints} {bytes : List UInt8}
    (h : descriptor.encode = .ok bytes) : decode endpoints bytes = .ok descriptor := by
  rw [decode, decodeCanonicalStrict_of_encode "" h]
  exact decodeWire_wire descriptor

end NodeDescriptorV1

def nodeDescriptorFormat : LawfulFormat where
  Descriptor := NodeDescriptorV1 endpoints
  node := NodeDescriptorV1.node
  revision := NodeDescriptorV1.revision
  encode := NodeDescriptorV1.encode
  decode := NodeDescriptorV1.decode endpoints
  decode_encode := NodeDescriptorV1.decode_encode

end Radiata.Membership
