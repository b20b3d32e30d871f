import Radiata.Protocol.CborCanonical

/-!
# Strict typed bodies

Encoding succeeds exactly on values whose item fits the limits, and the strict
decoder is its partial inverse in both directions: it reads back every encoded
value, and a body it accepts is the encoding of what it returns.
-/

namespace Radiata.Protocol

open Lib.Cbor

variable {α : Type} {codec : Codec α} {limits : CborLimits}

variable {value : α} {bytes : List UInt8}

lemma encodeCanonical_eq_ok : encodeCanonical codec value limits = .ok bytes ↔
      bytes = (codec.toItem value).encode ∧
        bytes.length ≤ limits.maxBodyLen.toNat ∧ validateCanonical bytes limits = .ok () := by
  rw [encodeCanonical]
  constructor
  · intro h
    dsimp only at h
    split_ifs at h with hlen
    · cases h
    obtain ⟨_, hvalid, h⟩ := bind_eq_ok.mp h
    obtain rfl := Except.ok.inj h
    exact ⟨rfl, by omega, hvalid⟩
  · rintro ⟨rfl, hlen, hvalid⟩
    dsimp only
    rw [if_neg (by omega), hvalid]
    rfl

lemma encodeCanonical_too_long {value : α}
    (h : limits.maxBodyLen.toNat < (codec.toItem value).encode.length) :
    encodeCanonical codec value limits = .error (.invalidInput "CBOR encode") := by
  rw [encodeCanonical]
  dsimp only
  rw [if_pos h]
  rfl

lemma encodeCanonical_of_fits (hdepth : limits.maxDepth ≠ 0)
    (hitems : limits.maxCollectionItems ≠ 0) (hbody : limits.maxBodyLen ≠ 0)
    (h : (codec.toItem value).Within limits.maxDepth.toNat limits.maxCollectionItems.toNat)
    (hlen : (codec.toItem value).encode.length ≤ limits.maxBodyLen.toNat) :
    encodeCanonical codec value limits = .ok (codec.toItem value).encode :=
  encodeCanonical_eq_ok.mpr
    ⟨rfl, hlen, validateCanonical_of_deterministic hdepth hitems hbody
      ⟨rfl, hlen, h.depth_le, h.count_le, h.ascend⟩⟩

lemma decodeCanonicalStrict_of_encode (context : String)
    (h : encodeCanonical codec value limits = .ok bytes) :
    decodeCanonicalStrict codec bytes limits context = .ok value := by
  obtain ⟨rfl, hlen, hvalid⟩ := encodeCanonical_eq_ok.mp h
  have hbound := limits.maxBodyLen.toNat_lt
  have hparse := codec.parse_encode value [] (by omega)
  rw [List.append_nil] at hparse
  have hdecode : decodeCanonical codec (codec.toItem value).encode limits = .ok value := by
    rw [decodeCanonical, hvalid, hparse]
    rfl
  rw [decodeCanonicalStrict, hdecode]
  simp [h, pure, Except.pure]

lemma encodeCanonical_of_decodeStrict {context : String}
    (h : decodeCanonicalStrict codec bytes limits context = .ok value) :
    encodeCanonical codec value limits = .ok bytes := by
  obtain ⟨value', _, h⟩ := bind_eq_ok.mp h
  obtain ⟨encoded, hencoded, h⟩ := bind_eq_ok.mp h
  split_ifs at h with hne
  · cases h
  obtain rfl := Except.ok.inj h
  rw [hencoded, not_not.mp hne]

end Radiata.Protocol
