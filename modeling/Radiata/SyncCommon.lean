import Radiata.Protocol.CborStrict

/-!
# The sync payload envelope

A control body carries one sync payload under its lane's schema: `[schema, payload]`,
or `[schema, kind, payload]` for the lanes with kinds.  The envelope has the same
ceiling as the payload it wraps, so a payload close to the ceiling is refused here.
-/

namespace Radiata

open Lib.Cbor Protocol

structure KindedSyncEnvelopeWire where
  schema : String
  kind : UInt8
  payload : List UInt8

structure PlainSyncEnvelopeWire where
  schema : String
  payload : List UInt8

namespace KindedSyncEnvelopeWire

def codec : Codec KindedSyncEnvelopeWire :=
  (Codec.array (.cons .text (.cons .u8 (.last .byteVec)))).iso
    (fun (schema, kind, payload) => ⟨schema, kind, payload⟩)
    (fun w => (w.schema, w.kind, w.payload)) fun _ => rfl

end KindedSyncEnvelopeWire

namespace PlainSyncEnvelopeWire

def codec : Codec PlainSyncEnvelopeWire :=
  (Codec.array (.cons .text (.last .byteVec))).iso
    (fun (schema, payload) => ⟨schema, payload⟩) (fun w => (w.schema, w.payload)) fun _ => rfl

end PlainSyncEnvelopeWire

def encodeSyncEnvelope (schema : String) (kind : Option UInt8) (payload : List UInt8) :
    Result (List UInt8) :=
  match kind with
  | some kind => encodeCanonical KindedSyncEnvelopeWire.codec
      ⟨schema, kind, payload⟩ controlCborLimits
  | none => encodeCanonical PlainSyncEnvelopeWire.codec ⟨schema, payload⟩ controlCborLimits

def decodePlainSyncEnvelope (bytes : List UInt8) (schema canonicalContext schemaContext : String) :
    Result (List UInt8) := do
  let wire ← decodeCanonicalStrict PlainSyncEnvelopeWire.codec bytes controlCborLimits
    canonicalContext
  if wire.schema ≠ schema then throw (.invalidInput schemaContext)
  pure wire.payload

def plainEnvelopeLen (schema : String) (payloadLen : ℕ) : ℕ :=
  1 + (headerLen (utf8 schema).length + (utf8 schema).length) +
    (headerLen payloadLen + payloadLen)

lemma length_plainEnvelope (schema : String) (payload : List UInt8) :
    (Item.array [.text schema, .bytes payload]).encode.length =
      plainEnvelopeLen schema payload.length := by
  rw [Item.length_encode_array, headerLen_of_lt (by simp)]
  simp only [List.map_cons, List.map_nil, List.sum_cons, List.sum_nil, Item.length_encode_text,
    Item.length_encode_bytes, plainEnvelopeLen]
  omega

variable {schema : String} {payload bytes : List UInt8}

lemma encodeSyncEnvelope_plain_iff : encodeSyncEnvelope schema none payload = .ok bytes ↔
      bytes = (Item.array [.text schema, .bytes payload]).encode ∧
        plainEnvelopeLen schema payload.length ≤ maxBodyBytes.toNat := by
  have hwithin : (Item.array [.text schema, .bytes payload]).Within 16 1024 :=
    .array (by simp) (by simp [Item.Within.text, Item.Within.bytes])
  show encodeCanonical PlainSyncEnvelopeWire.codec ⟨schema, payload⟩ controlCborLimits = _ ↔ _
  rw [← length_plainEnvelope]
  constructor
  · intro h
    obtain ⟨rfl, hlen, -⟩ := encodeCanonical_eq_ok.mp h
    exact ⟨rfl, hlen⟩
  · rintro ⟨rfl, hlen⟩
    exact encodeCanonical_of_fits (by decide) (by decide) (by decide) hwithin hlen

lemma encodeSyncEnvelope_plain_error
    (h : maxBodyBytes.toNat < plainEnvelopeLen schema payload.length) :
    encodeSyncEnvelope schema none payload = .error (.invalidInput "CBOR encode") := by
  rw [← length_plainEnvelope] at h
  show encodeCanonical PlainSyncEnvelopeWire.codec ⟨schema, payload⟩ controlCborLimits = _
  exact encodeCanonical_too_long h

/-- **A plain envelope opens exactly to the payload it was closed over**, under its own schema. -/
theorem decodePlainSyncEnvelope_eq_ok (canonicalContext schemaContext : String) :
    decodePlainSyncEnvelope bytes schema canonicalContext schemaContext = .ok payload ↔
      encodeSyncEnvelope schema none payload = .ok bytes := by
  constructor
  · intro h
    obtain ⟨⟨named, carried⟩, hwire, h⟩ := bind_eq_ok.mp h
    dsimp only at h
    split_ifs at h with hschema
    · cases h
    · obtain rfl := Except.ok.inj h
      obtain rfl := not_not.mp hschema
      exact encodeCanonical_of_decodeStrict hwire
  · intro h
    have hwire : decodeCanonicalStrict PlainSyncEnvelopeWire.codec bytes controlCborLimits
        canonicalContext = .ok ⟨schema, payload⟩ :=
          decodeCanonicalStrict_of_encode canonicalContext h
    rw [decodePlainSyncEnvelope, hwire, ok_bind]
    simp [pure, Except.pure]

end Radiata
