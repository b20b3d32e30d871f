import Radiata.Protocol.CborStrict

/-!
# The row digest

The frozen digest of a row: the first eight bytes, big-endian, of the hash of the
canonical encoding of `[key, content]`.  The hash function itself is a parameter.
-/

namespace Radiata.Reconcile

open Lib.Cbor Protocol

def preimageLimits : CborLimits := ⟨4, 4, maxBodyBytes⟩

structure PreimageWire where
  key : List UInt8
  content : List UInt8

namespace PreimageWire

def codec : Codec PreimageWire :=
  (Codec.array (.cons .byteVec (.last .byteVec))).iso
    (fun (key, content) => ⟨key, content⟩) (fun w => (w.key, w.content)) fun _ => rfl

lemma toItem_eq (w : PreimageWire) : codec.toItem w = .array [.bytes w.key, .bytes w.content] :=
  rfl

end PreimageWire

abbrev Hash := List UInt8 → Vector UInt8 32

/-- Three hashes for samples: constant, the sum of the bytes, and one that sees their order. -/
def zeroHash : Hash := fun _ => Vector.replicate 32 0

def sumHash : Hash := fun bytes => Vector.replicate 32 (bytes.foldl (· + ·) 0)

def positionHash : Hash := fun bytes => Vector.replicate 32 (bytes.foldl (3 * · + ·) 0)

def itemDigest (sha256 : Hash) (key content : List UInt8) : Result UInt64 := do
  let preimage ← encodeCanonical PreimageWire.codec ⟨key, content⟩ preimageLimits
  let hash := sha256 preimage
  pure (UInt64.ofNat (beValue (hash.toList.take 8)))

lemma exists_itemDigest (sha256 : Hash) {key content : List UInt8}
    (h : 1 + (headerLen key.length + key.length) + (headerLen content.length + content.length) ≤
      65536) :
    ∃ digest, itemDigest sha256 key content = .ok digest := by
  have hwithin : (PreimageWire.codec.toItem ⟨key, content⟩).Within 4 4 := by
    rw [PreimageWire.toItem_eq]
    exact .array (by simp) (by simp [Item.Within.bytes])
  have hlength : (PreimageWire.codec.toItem ⟨key, content⟩).encode.length ≤ 65536 := by
    rw [PreimageWire.toItem_eq, Item.length_encode_array, headerLen_of_lt (by simp)]
    simp only [List.map_cons, List.map_nil, List.sum_cons, List.sum_nil, Item.length_encode_bytes]
    omega
  have hencode : encodeCanonical PreimageWire.codec ⟨key, content⟩ preimageLimits =
      .ok (PreimageWire.codec.toItem ⟨key, content⟩).encode :=
    encodeCanonical_of_fits (by decide) (by decide) (by decide) hwithin hlength
  rw [itemDigest, hencode, ok_bind]
  exact ⟨_, rfl⟩

end Radiata.Reconcile
