import Radiata.Identity.Id
import Radiata.Protocol.CborStrict

/-!
# Canonical records

Every durable identity record has the same scaffolding: a wire array of schema,
version and fields, a canonical encoder, and a strict decoder that checks the header
and converts each field.  A format is given by the kinds of its fields; each kind says
how its value is written and read back, and the two are inverse in both directions.

The scaffolding inherits that: a body decodes to a record exactly when it is the
record's encoding.  Two stored bodies of one family are equal when their records are.
-/

namespace Radiata.Identity

open Lib Lib.Cbor Protocol

abbrev FixedBytes (n : ℕ) := {bytes : List UInt8 // bytes.length = n}

abbrev PublicKey := FixedBytes 32
abbrev Signature := FixedBytes 64

def fixedBytes (n : ℕ) (bytes : List UInt8) (context : String) : Result (FixedBytes n) :=
  if h : bytes.length = n then .ok ⟨bytes, h⟩ else .error (.invalidInput context)

/-! ## Field kinds -/

structure FieldKind (α : Type) where
  Wire : Type
  codec : Codec Wire
  enc : α → Wire
  dec : Wire → Result α
  dec_enc : ∀ a, dec (enc a) = .ok a
  enc_of_dec : ∀ {w a}, dec w = .ok a → enc a = w

namespace FieldKind

def node : FieldKind NodeId where
  Wire := Text
  codec := .chars
  enc := CanonicalId.text
  dec := NodeId.parse
  dec_enc id := id.parse_text _
  enc_of_dec h := CanonicalId.text_of_parse h

def fixed (n : ℕ) (context : String) : FieldKind (FixedBytes n) where
  Wire := List UInt8
  codec := .byteVec
  enc := Subtype.val
  dec bytes := fixedBytes n bytes context
  dec_enc a := dif_pos a.2
  enc_of_dec {w a} h := by
    unfold fixedBytes at h
    split_ifs at h
    exact (Except.ok.inj h) ▸ rfl

def key32 : String → FieldKind PublicKey := fixed 32
def sig : String → FieldKind Signature := fixed 64

def stamp : FieldKind Codec.Signed64 where
  Wire := Codec.Signed64
  codec := .i64
  enc := id
  dec := .ok
  dec_enc _ := rfl
  enc_of_dec h := (Except.ok.inj h).symm

end FieldKind

structure RecordFields (α : Type) where
  Wire : Type
  fields : Fields Wire
  enc : α → Wire
  dec : Wire → Result α
  dec_enc : ∀ a, dec (enc a) = .ok a
  enc_of_dec : ∀ {w a}, dec w = .ok a → enc a = w

namespace RecordFields

def last {α : Type} (k : FieldKind α) : RecordFields α :=
  ⟨k.Wire, .last k.codec, k.enc, k.dec, k.dec_enc, k.enc_of_dec⟩

def cons {α β : Type} (k : FieldKind α) (r : RecordFields β) : RecordFields (α × β) where
  Wire := k.Wire × r.Wire
  fields := .cons k.codec r.fields
  enc ab := (k.enc ab.1, r.enc ab.2)
  dec w := do
    let a ← k.dec w.1
    let b ← r.dec w.2
    pure (a, b)
  dec_enc ab := by
    rw [k.dec_enc, ok_bind, r.dec_enc]
    rfl
  enc_of_dec {w ab} h := by
    obtain ⟨a, ha, h⟩ := bind_eq_ok.mp h
    obtain ⟨b, hb, h⟩ := bind_eq_ok.mp h
    obtain rfl := Except.ok.inj h
    rw [k.enc_of_dec ha, r.enc_of_dec hb]

end RecordFields

/-! ## Formats -/

structure RecordFormat (α : Type) where
  schema : Text
  version : UInt16
  limits : CborLimits
  label : String
  canonicalContext : String
  headerError : String
  Parts : Type
  fields : RecordFields Parts
  parts : α → Parts
  make : Parts → α
  make_parts : ∀ a, make (parts a) = a
  parts_make : ∀ p, parts (make p) = p

namespace RecordFormat

variable {α : Type} (f : RecordFormat α)

def codec : Codec (Text × UInt16 × f.fields.Wire) :=
  .array (.cons .chars (.cons .u16 f.fields.fields))

def encode (a : α) : Result (List UInt8) :=
  encodeCanonical f.codec (f.schema, f.version, f.fields.enc (f.parts a)) f.limits

def decode (bytes : List UInt8) : Result α := do
  let wire ← (decodeCanonicalStrict f.codec bytes f.limits f.canonicalContext).mapError
    fun _ => .invalidInput f.label
  require (wire.1 = f.schema ∧ wire.2.1 = f.version) (.invalidInput f.headerError)
  let parts ← f.fields.dec wire.2.2
  pure (f.make parts)

lemma mapError_eq_ok {β : Type} {x : Result β} {g : Error → Error} {b : β} :
    x.mapError g = .ok b ↔ x = .ok b := by
  cases x <;> simp [Except.mapError]

variable {f}

variable {bytes : List UInt8}

/-- **A body decodes to a record exactly when it is the record's encoding.** -/
theorem decode_eq_ok {a : α} : f.decode bytes = .ok a ↔ f.encode a = .ok bytes := by
  constructor
  · intro h
    obtain ⟨⟨schema, version, w⟩, hwire, h⟩ := bind_eq_ok.mp h
    obtain ⟨⟨rfl, rfl⟩, h⟩ := require_bind_eq_ok.mp h
    obtain ⟨parts, hparts, h⟩ := bind_eq_ok.mp h
    obtain rfl := Except.ok.inj h
    rw [encode, f.parts_make, f.fields.enc_of_dec hparts]
    exact encodeCanonical_of_decodeStrict (mapError_eq_ok.mp hwire)
  · intro h
    have hwire := mapError_eq_ok (g := fun _ => .invalidInput f.label).mpr
      (decodeCanonicalStrict_of_encode f.canonicalContext h)
    rw [decode, hwire, ok_bind, require_bind_eq_ok]
    refine ⟨⟨rfl, rfl⟩, ?_⟩
    show (f.fields.dec (f.fields.enc (f.parts a)) >>= fun _ => _) = _
    rw [f.fields.dec_enc, ok_bind, f.make_parts]
    rfl

lemma bytes_eq_of_decode {bytes' : List UInt8} {a : α} (h : f.decode bytes = .ok a)
    (h' : f.decode bytes' = .ok a) : bytes = bytes' :=
  Except.ok.inj ((decode_eq_ok.mp h).symm.trans (decode_eq_ok.mp h'))

end RecordFormat

end Radiata.Identity
