import Radiata.Protocol.HandshakeSteps

/-!
# Sizes of handshake messages

An offer has at most 128 supported and 128 required labels of at most 128 bytes, so its encoding
takes at most 37765 bytes.  Every hello, proof and confirmation embeds at most one offer or one
selection and fits the limit of a control body.  The transcript embeds two offers and the
selection, and nothing bounds it below that limit.
-/

namespace Radiata.Protocol

open Lib Lib.Cbor Lib.Checked
open Identity (FixedBytes PublicKey Signature)
open List (length_map map_cons map_nil sum_cons sum_nil)
open FeatureOffer (wire)

/-! ## Texts and byte strings -/

variable (t : Text)

lemma utf8Len_eq : String.utf8Len t = utf8Len t := by
  induction t with
  | nil => rfl
  | cons c t ih => rw [String.utf8Len_cons, utf8Len_cons, ih, Nat.add_comm]

lemma length_utf8_ofList : (utf8 (String.ofList t)).length = utf8Len t := by
  rw [← utf8Len_eq, ← String.utf8ByteSize_ofList, ← String.size_toByteArray]
  rfl

variable {n : ℕ}

lemma headerLen_le (h : n < 2 ^ 16) : headerLen n ≤ 3 := by
  unfold headerLen
  split_ifs <;> omega

lemma headerLen_short (h : n < 2 ^ 8) : headerLen n ≤ 2 := by
  unfold headerLen
  split_ifs <;> omega

lemma length_chars : (Codec.chars.toItem t).encode.length = headerLen (utf8Len t) + utf8Len t := by
  rw [show Codec.chars.toItem t = .text (String.ofList t) from rfl, Item.length_encode_text,
    length_utf8_ofList]

lemma length_byteVec (bytes : List UInt8) :
    (Codec.byteVec.toItem bytes).encode.length = headerLen bytes.length + bytes.length :=
  Item.length_encode_bytes bytes

lemma length_label_le (tag : FeatureTag) :
    (Codec.chars.toItem tag.tag.value).encode.length ≤ 130 := by
  have hvalid := tag.tag.valid
  unfold validateTag at hvalid
  obtain ⟨⟨⟩, hrequire, -⟩ := bind_eq_ok.mp hvalid
  have hlength : utf8Len tag.tag.value ≤ 128 := (require_eq_ok.mp hrequire).2.1
  have hheader := headerLen_short (show utf8Len tag.tag.value < 2 ^ 8 by omega)
  rw [length_chars]
  omega

lemma length_vec_le {α : Type} (codec : Codec α) (values : List α) (bound : ℕ)
    (hcount : values.length < 2 ^ 8) (h : ∀ a ∈ values, (codec.toItem a).encode.length ≤ bound) :
    (codec.vec.toItem values).encode.length ≤ 2 + values.length * bound := by
  have hheader := headerLen_short hcount
  have hsum : ((values.map codec.toItem).map fun i => i.encode.length).sum ≤
      values.length * bound := by
    have hle := List.sum_le_card_nsmul ((values.map codec.toItem).map fun i => i.encode.length)
      bound
      (by
        intro n hn
        obtain ⟨i, hi, rfl⟩ := List.mem_map.mp hn
        obtain ⟨a, ha, rfl⟩ := List.mem_map.mp hi
        exact h a ha)
    simpa using hle
  rw [show codec.vec.toItem values = .array (values.map codec.toItem) from rfl,
    Item.length_encode_array, length_map]
  omega

/-! ## Offers and selections -/

lemma length_supported_le (entry : FeatureTag × Digest) :
    ((Codec.array (.cons .chars (.last .byteVec))).toItem
      (entry.1.tag.value, entry.2.toList)).encode.length ≤ 165 := by
  have hlabel := length_label_le entry.1
  have hdigest : (Codec.byteVec.toItem entry.2.toList).encode.length = 34 := by
    rw [length_byteVec, Vector.length_toList]
    rfl
  show (Item.array [Codec.chars.toItem entry.1.tag.value,
    Codec.byteVec.toItem entry.2.toList]).encode.length ≤ 165
  rw [Item.length_encode_array]
  simp only [map_cons, map_nil, sum_cons, sum_nil, hdigest]
  have hheader : headerLen [Codec.chars.toItem entry.1.tag.value,
    Codec.byteVec.toItem entry.2.toList].length = 1 := rfl
  omega

lemma length_offer_le (offer : FeatureOffer) :
    (offerCodec.toItem offer.wire).encode.length ≤ 37765 := by
  have hs := offer.supported_bounded
  have hr := offer.required_bounded
  unfold maxSupportedLabels at hs
  unfold maxRequiredLabels at hr
  have hsupported := length_vec_le (.array (.cons .chars (.last .byteVec))) offer.wire.1 165 (by
      rw [wire, length_map]; omega) (by
      intro a ha
      obtain ⟨entry, -, rfl⟩ := List.mem_map.mp ha
      exact length_supported_le entry)
  have hrequired := length_vec_le .chars offer.wire.2 130 (by
      rw [wire, length_map]; omega) (by
      intro a ha
      obtain ⟨tag, -, rfl⟩ := List.mem_map.mp ha
      exact length_label_le tag)
  have hcounts : offer.wire.1.length ≤ 128 ∧ offer.wire.2.length ≤ 128 := by
    simp only [wire, length_map]
    exact ⟨hs, hr⟩
  show (Item.array [_, _]).encode.length ≤ 37765
  rw [Item.length_encode_array]
  simp only [map_cons, map_nil, sum_cons, sum_nil]
  have hheader : ∀ a b : Item, headerLen [a, b].length = 1 := fun _ _ => rfl
  rw [hheader]
  omega

/-! ## What the control limits accept -/

lemma encode_control {α : Type} {codec : Codec α} {value : α}
    (h : (codec.toItem value).Within 16 1024) (hlen : (codec.toItem value).encode.length ≤ 65536) :
    encodeCanonical codec value controlCborLimits = .ok (codec.toItem value).encode :=
  encodeCanonical_of_fits (by decide) (by decide) (by decide) h hlen

variable {d : ℕ}

lemma within_chars : (Codec.chars.toItem t).Within d 1024 := .text _

lemma within_byteVec (bytes : List UInt8) : (Codec.byteVec.toItem bytes).Within d 1024 :=
  .bytes _

lemma within_u64 (n : UInt64) : (Codec.u64.toItem n).Within d 1024 := .uint _

lemma within_optional (value : Option (List UInt8)) :
    (optionalBytesCodec.toItem value).Within d 1024 := by
  cases value with
  | none => exact ⟨Nat.zero_le _, Nat.zero_le _, trivial⟩
  | some bytes => exact .bytes bytes

lemma within_pair (pair : Text × List UInt8) :
    ((Codec.array (.cons .chars (.last .byteVec))).toItem pair).Within (d + 1) 1024 := by
  refine .array (show 2 ≤ 1024 by decide) ?_
  simp only [Fields.cons, Fields.last, List.forall_mem_cons, List.not_mem_nil, false_imp_iff,
    implies_true, and_true]
  exact ⟨within_chars _, within_byteVec _⟩

/-- **Every offer encodes.** -/
theorem offer_encodes (offer : FeatureOffer) :
    offer.encode = .ok (offerCodec.toItem offer.wire).encode := by
  have hs : offer.wire.1.length ≤ 1024 := by
    rw [wire, length_map]
    exact offer.supported_bounded.trans (by decide)
  have hr : offer.wire.2.length ≤ 1024 := by
    rw [wire, length_map]
    exact offer.required_bounded.trans (by decide)
  refine encode_control ?_ ((length_offer_le offer).trans (by decide))
  refine .array (show 2 ≤ 1024 by decide) ?_
  simp only [Fields.cons, Fields.last, List.forall_mem_cons, List.not_mem_nil, false_imp_iff,
    implies_true, and_true]
  exact ⟨.vec hs fun pair _ => within_pair pair, .vec hr fun t _ => within_chars t⟩

/-! ## Messages -/

lemma length_u64_le (n : UInt64) (h : n.toNat < 24) : (Codec.u64.toItem n).encode.length = 1 := by
  rw [show Codec.u64.toItem n = .uint n from rfl, Item.length_encode_uint, headerLen, if_pos h]

lemma length_mode_le (mode : HandshakeMode) : (Codec.chars.toItem mode.text).encode.length ≤ 7 := by
  rw [length_chars]
  cases mode <;> decide

lemma length_nodeId (id : NodeId) : (Codec.chars.toItem id.text).encode.length = 28 := by
  have hlength : utf8Len id.text = 26 := id.valid.1
  rw [length_chars, hlength]
  rfl

lemma length_fixed (field : FixedBytes n) :
    (Codec.byteVec.toItem field.1).encode.length = headerLen n + n := by
  rw [length_byteVec, field.2]

lemma length_optional_le (field : Option (FixedBytes n)) :
    (optionalBytesCodec.toItem (field.map Subtype.val)).encode.length ≤ headerLen n + n := by
  cases field with
  | none => exact Nat.add_pos_left (headerLen_pos n) n
  | some field => exact (length_fixed field).le

lemma length_payload_le {bytes : List UInt8} (h : bytes.length < 2 ^ 16) :
    (Codec.byteVec.toItem bytes).encode.length ≤ 3 + bytes.length := by
  rw [length_byteVec]
  exact Nat.add_le_add_right (headerLen_le h) _

lemma encode_message {α : Type} (f : Fields α) (kind : HandshakeKind) (rest : α)
    (hcount : f.arity < 23) (hwithin : ∀ i ∈ f.toItems rest, i.Within 15 1024)
    (hlen : ((f.toItems rest).map fun i => i.encode.length).sum ≤ 65534) :
    encodeCanonical (.array (.cons .u64 f)) (kind.kindId, rest) controlCborLimits =
      .ok ((Codec.array (.cons .u64 f)).toItem (kind.kindId, rest)).encode := by
  have hkind : (Codec.u64.toItem kind.kindId).encode.length = 1 :=
    length_u64_le _ (by cases kind <;> decide)
  have hitems : ((Codec.array (.cons .u64 f)).toItem (kind.kindId, rest)) =
      .array (Codec.u64.toItem kind.kindId :: f.toItems rest) := rfl
  have harity : (Codec.u64.toItem kind.kindId :: f.toItems rest).length = f.arity + 1 := by
    rw [List.length_cons, f.length_toItems]
  apply encode_control
  · rw [hitems]
    refine .array (by rw [harity]; omega) fun i hi => ?_
    rcases List.mem_cons.mp hi with rfl | hi
    · exact within_u64 _
    · exact hwithin i hi
  · rw [hitems, Item.length_encode_array, harity, map_cons, sum_cons, hkind, headerLen,
      if_pos (by omega)]
    omega

end Radiata.Protocol
