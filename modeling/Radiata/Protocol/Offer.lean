import Radiata.Identity.Record
import Radiata.Lib.OrdSet
import Radiata.Protocol.Feature

/-!
# Feature offers

An offer lists the labels an endpoint supports, with the digests of their definitions, and
the labels it requires.  Both lists are sorted and without repetition, bounded, and the
second is within the first; an offer that violates this cannot be built.  The wire form is
canonical: an offer and its bytes determine each other.
-/

namespace Radiata.Protocol

open Lib Lib.Cbor Reconcile

def maxSupportedLabels : ℕ := 128
def maxRequiredLabels : ℕ := 128

inductive Role where
  | initiator
  | responder
deriving DecidableEq

def Role.text : Role → Text
  | .initiator => "initiator".toList
  | .responder => "responder".toList

def Role.other : Role → Role
  | .initiator => .responder
  | .responder => .initiator

section Sorted

variable {α κ : Type} [LinearOrder κ] (key : α → κ)

def uniqueSorted : List α → Bool
  | a :: b :: rest => decide (key a ≠ key b) && uniqueSorted (b :: rest)
  | _ => true

variable {key}

variable {l : List α}

lemma pairwise_lt_of_uniqueSorted (hsorted : l.Pairwise fun a b => key a ≤ key b)
    (h : uniqueSorted key l = true) : l.Pairwise fun a b => key a < key b := by
  induction l using uniqueSorted.induct with
  | case1 a b rest ih =>
    obtain ⟨hhead, htail⟩ := List.pairwise_cons.mp hsorted
    rw [uniqueSorted, Bool.and_eq_true, decide_eq_true_eq] at h
    have hlt : key a < key b := lt_of_le_of_ne (hhead b List.mem_cons_self) h.1
    have hrest := ih htail h.2
    refine List.pairwise_cons.mpr ⟨fun c hc => ?_, hrest⟩
    rcases List.mem_cons.mp hc with rfl | hc
    · exact hlt
    · exact hlt.trans ((List.pairwise_cons.mp hrest).1 c hc)
  | case2 l hshort =>
    cases l with
    | nil => exact List.Pairwise.nil
    | cons a l =>
      cases l with
      | nil => exact List.pairwise_singleton _ _
      | cons b l => exact absurd rfl (hshort a b l)

lemma uniqueSorted_of_pairwise (h : l.Pairwise fun a b => key a < key b) :
    uniqueSorted key l = true := by
  induction l using uniqueSorted.induct with
  | case1 a b rest ih =>
    obtain ⟨hhead, htail⟩ := List.pairwise_cons.mp h
    rw [uniqueSorted, Bool.and_eq_true]
    exact ⟨decide_eq_true (hhead b List.mem_cons_self).ne, ih htail⟩
  | case2 l hshort =>
    unfold uniqueSorted
    split
    · exact absurd rfl (hshort _ _ _)
    · rfl

variable (key) in
lemma insertionSort_eq_of_perm {m : List α} (h : m.Pairwise fun a b => key a < key b)
    (hperm : l.Perm m) : l.insertionSort (fun a b => key a ≤ key b) = m := by
  have htotal : Std.Total fun a b => key a ≤ key b := ⟨fun a b => le_total _ _⟩
  have htrans : IsTrans α fun a b => key a ≤ key b := ⟨fun _ _ _ => le_trans⟩
  have hsorted := (List.perm_insertionSort (fun a b => key a ≤ key b) l).trans hperm
  have hnodup : (m.map key).Nodup := (List.pairwise_map.mpr h).imp ne_of_lt
  refine hsorted.eq_of_pairwise ?_ (List.pairwise_insertionSort _ l) (h.imp le_of_lt)
  intro a b ha hb hab hba
  exact List.inj_on_of_nodup_map hnodup (hsorted.mem_iff.mp ha) hb (le_antisymm hab hba)

end Sorted

/-! ## Offers -/

structure FeatureOffer where
  supported : List (FeatureTag × Digest)
  required : List FeatureTag
  supported_ascending : Ascending supported
  required_ascending : required.Pairwise (· < ·)
  supported_bounded : supported.length ≤ maxSupportedLabels
  required_bounded : required.length ≤ maxRequiredLabels
  required_supported : ∀ tag ∈ required, ∃ entry ∈ supported, entry.1 = tag

abbrev OfferWire := List (Text × List UInt8) × List Text

def offerCodec : Codec OfferWire :=
  .array (.cons (Codec.array (.cons .chars (.last .byteVec))).vec (.last Codec.chars.vec))

namespace FeatureOffer

lemma ext {a b : FeatureOffer} (hsupported : a.supported = b.supported)
    (hrequired : a.required = b.required) : a = b := by
  obtain ⟨s, r, _, _, _, _, _⟩ := a
  obtain ⟨s', r', _, _, _, _, _⟩ := b
  obtain rfl : s = s' := hsupported
  obtain rfl : r = r' := hrequired
  rfl

lemma length_insertionSort_le {α : Type} {r : α → α → Prop} [DecidableRel r] {l : List α} {n : ℕ}
    (h : l.length ≤ n) : (l.insertionSort r).length ≤ n := by
  rwa [List.length_insertionSort]

variable (supported : List (FeatureTag × Digest)) (required : List FeatureTag)

def finalize (hsupported : supported.length ≤ maxSupportedLabels)
    (hrequired : required.length ≤ maxRequiredLabels) : Result FeatureOffer :=
  let sorted := supported.insertionSort fun a b => a.1 ≤ b.1
  let wanted := required.insertionSort fun a b => a ≤ b
  if hs : uniqueSorted Prod.fst sorted = true then
    if hr : uniqueSorted id wanted = true then
      if hsub : ∀ tag ∈ wanted, ∃ entry ∈ sorted, entry.1 = tag then
        .ok {
          supported := sorted
          required := wanted
          supported_ascending := pairwise_lt_of_uniqueSorted (sorted_fst supported) hs
          required_ascending := pairwise_lt_of_uniqueSorted (sorted_tags required) hr
          supported_bounded := length_insertionSort_le hsupported
          required_bounded := length_insertionSort_le hrequired
          required_supported := hsub }
      else .error (.invalidInput "feature offer required unsupported")
    else .error (.invalidInput "feature offer required duplicate")
  else .error (.invalidInput "feature offer supported duplicate")
where
  sorted_fst (supported : List (FeatureTag × Digest)) :
      (supported.insertionSort fun a b => a.1 ≤ b.1).Pairwise fun a b => a.1 ≤ b.1 := by
    have htotal : Std.Total fun a b : FeatureTag × Digest => a.1 ≤ b.1 := ⟨fun a b => le_total _ _⟩
    have htrans : IsTrans _ fun a b : FeatureTag × Digest => a.1 ≤ b.1 := ⟨fun _ _ _ => le_trans⟩
    exact List.pairwise_insertionSort _ _
  sorted_tags (required : List FeatureTag) :
      (required.insertionSort fun a b => a ≤ b).Pairwise fun a b => id a ≤ id b :=
    List.pairwise_insertionSort _ _

def new : Result FeatureOffer :=
  if hs : supported.length ≤ maxSupportedLabels then
    if hr : required.length ≤ maxRequiredLabels then finalize supported required hs hr
    else .error (.invalidInput "feature offer required capacity")
  else .error (.invalidInput "feature offer supported capacity")

variable (offer : FeatureOffer)

def supportedDigest (tag : FeatureTag) : Option Digest :=
  OrdMap.get? ⟨offer.supported, offer.supported_ascending⟩ tag

def wire : OfferWire :=
  (offer.supported.map fun entry => (entry.1.tag.value, entry.2.toList),
    offer.required.map fun tag => tag.tag.value)

def encode : Result (List UInt8) :=
  encodeCanonical offerCodec offer.wire controlCborLimits

end FeatureOffer

def mapOrdered {α β : Type} (key : α → Text) (context : String) (map : α → Result β) :
    Option Text → List α → Result (List β)
  | _, [] => .ok []
  | previous, entry :: entries => do
      require (∀ last ∈ previous, last < key entry) (.invalidInput context)
      let mapped ← map entry
      let rest ← mapOrdered key context map (some (key entry)) entries
      pure (mapped :: rest)

variable {previous : Option Text}

lemma length_mapOrdered {α β : Type} {key : α → Text} {context : String} {map : α → Result β}
    {entries : List α} {mapped : List β}
    (h : mapOrdered key context map previous entries = .ok mapped) :
    mapped.length = entries.length := by
  induction entries generalizing previous mapped with
  | nil =>
    obtain rfl := Except.ok.inj h
    rfl
  | cons entry entries ih =>
    obtain ⟨-, h⟩ := require_bind_eq_ok.mp h
    obtain ⟨first, -, h⟩ := bind_eq_ok.mp h
    obtain ⟨rest, hrest, h⟩ := bind_eq_ok.mp h
    obtain rfl := Except.ok.inj h
    rw [List.length_cons, List.length_cons, ih hrest]

lemma mapOrdered_map {α β : Type} (key : α → Text) {context : String} {map : α → Result β}
    (write : β → α) (hmap : ∀ b, map (write b) = .ok b) {bs : List β}
    (h : bs.Pairwise fun a b => key (write a) < key (write b))
    (hprevious : ∀ last ∈ previous, ∀ b ∈ bs, last < key (write b)) :
    mapOrdered key context map previous (bs.map write) = .ok bs := by
  induction bs generalizing previous with
  | nil => rfl
  | cons b bs ih =>
    obtain ⟨hhead, htail⟩ := List.pairwise_cons.mp h
    have hrest : mapOrdered key context map (some (key (write b))) (bs.map write) = .ok bs :=
      ih htail fun last hlast c hc => Option.some.inj hlast ▸ hhead c hc
    rw [List.map_cons, mapOrdered, hmap, ok_bind, hrest]
    exact require_bind_eq_ok.mpr
      ⟨fun last hlast => hprevious last hlast b List.mem_cons_self, rfl⟩

def readSupported (entry : Text × List UInt8) : Result (FeatureTag × Digest) := do
  let digest ← Identity.fixedBytes 32 entry.2 "feature offer digest"
  let tag ← FeatureTag.parse entry.1
  pure (tag, ⟨digest.1.toArray, digest.2⟩)

namespace FeatureOffer

def fromWire (wire : OfferWire) : Result FeatureOffer :=
  if hs : wire.1.length ≤ maxSupportedLabels then
    if hr : wire.2.length ≤ maxRequiredLabels then
      match hsupported : mapOrdered Prod.fst "feature offer supported ordering" readSupported none
          wire.1, hrequired : mapOrdered id "feature offer required ordering" FeatureTag.parse none
          wire.2 with
      | .error e, _ => .error e
      | .ok _, .error e => .error e
      | .ok supported, .ok required =>
        finalize supported required (length_mapOrdered hsupported ▸ hs)
          (length_mapOrdered hrequired ▸ hr)
    else .error (.invalidInput "feature offer required capacity")
  else .error (.invalidInput "feature offer supported capacity")

def decode (bytes : List UInt8) : Result FeatureOffer := do
  let wire ← decodeCanonicalStrict offerCodec bytes controlCborLimits "feature offer canonical form"
  fromWire wire

/-! ## Offers and their bytes -/

variable {supported : List (FeatureTag × Digest)} {required : List FeatureTag}

lemma finalize_of_perm (offer : FeatureOffer) (hsupported : supported.Perm offer.supported)
    (hrequired : required.Perm offer.required) {hs hr} :
    finalize supported required hs hr = .ok offer := by
  have hsorted : (supported.insertionSort fun a b => a.1 ≤ b.1) = offer.supported :=
    insertionSort_eq_of_perm Prod.fst offer.supported_ascending hsupported
  have hwanted : (required.insertionSort fun a b => a ≤ b) = offer.required :=
    insertionSort_eq_of_perm id offer.required_ascending hrequired
  unfold finalize
  dsimp only
  rw [dif_pos (by rw [hsorted]; exact uniqueSorted_of_pairwise offer.supported_ascending),
    dif_pos (by rw [hwanted]; exact uniqueSorted_of_pairwise offer.required_ascending),
    dif_pos (by rw [hsorted, hwanted]; exact offer.required_supported)]
  exact congrArg Except.ok (ext hsorted hwanted)

/-- **The order of an offer's entries does not matter.** -/
theorem new_of_perm (offer : FeatureOffer) (hsupported : supported.Perm offer.supported)
    (hrequired : required.Perm offer.required) : new supported required = .ok offer := by
  unfold new
  rw [dif_pos (hsupported.length_eq ▸ offer.supported_bounded),
    dif_pos (hrequired.length_eq ▸ offer.required_bounded)]
  exact offer.finalize_of_perm hsupported hrequired

lemma readSupported_write (entry : FeatureTag × Digest) :
    readSupported (entry.1.tag.value, entry.2.toList) = .ok entry := by
  have hdigest : Identity.fixedBytes 32 entry.2.toList "feature offer digest" =
      .ok ⟨entry.2.toList, entry.2.length_toList⟩ := dif_pos entry.2.length_toList
  rw [readSupported, hdigest, ok_bind, FeatureTag.parse, CategoryTag.parse_value]
  rfl

lemma fromWire_wire (offer : FeatureOffer) : fromWire offer.wire = .ok offer := by
  have hs : offer.wire.1.length ≤ maxSupportedLabels := by
    rw [wire, List.length_map]
    exact offer.supported_bounded
  have hr : offer.wire.2.length ≤ maxRequiredLabels := by
    rw [wire, List.length_map]
    exact offer.required_bounded
  have hsupported : mapOrdered Prod.fst "feature offer supported ordering" readSupported none
      offer.wire.1 = .ok offer.supported :=
    mapOrdered_map Prod.fst (fun entry : FeatureTag × Digest => (entry.1.tag.value, entry.2.toList))
      readSupported_write offer.supported_ascending (by simp)
  have hrequired : mapOrdered id "feature offer required ordering" FeatureTag.parse none
      offer.wire.2 = .ok offer.required :=
    mapOrdered_map id (fun tag : FeatureTag => tag.tag.value) (fun tag => tag.parse_value _)
      offer.required_ascending (by simp)
  unfold fromWire
  rw [dif_pos hs, dif_pos hr]
  split
  · next h => cases h.symm.trans hsupported
  · next _ h => cases h.symm.trans hrequired
  · next h h' =>
    obtain rfl := Except.ok.inj (h.symm.trans hsupported)
    obtain rfl := Except.ok.inj (h'.symm.trans hrequired)
    exact offer.finalize_of_perm (.refl _) (.refl _)

variable {offer : FeatureOffer}

/-- **An offer is read back from its bytes.** -/
theorem decode_encode {bytes : List UInt8} (h : offer.encode = .ok bytes) :
    decode bytes = .ok offer := by
  rw [decode, decodeCanonicalStrict_of_encode _ h, ok_bind, fromWire_wire]

lemma supportedDigest_eq_some {tag : FeatureTag} {digest : Digest} :
    offer.supportedDigest tag = some digest ↔ (tag, digest) ∈ offer.supported :=
  OrdMap.get?_eq_some

end FeatureOffer

/-! ## The offer of a node -/

def requiredSessionFeatures : Result (List FeatureTag) := do
  let auth ← FeatureTag.parse authEd25519Session
  let core ← FeatureTag.parse sessionCore
  pure [auth, core]

def definitionDigests (sha256 : Hash) :
    List (FeatureTag × FeatureDefinition) → Result (List (FeatureTag × Digest))
  | [] => .ok []
  | (tag, definition) :: rest => do
      let digest ← definition.definitionDigest sha256
      let digests ← definitionDigests sha256 rest
      pure ((tag, digest) :: digests)

/-- The offer of a node: every registered feature, and the session's features with the caller's
as required. -/
def nodeOffer (sha256 : Hash) (registry : FeatureRegistry) (callerRequired : OrdSet FeatureTag) :
    Result FeatureOffer := do
  let supported ← definitionDigests sha256 registry.definitions.entries
  let session ← requiredSessionFeatures
  let required := session.foldl OrdSet.add callerRequired
  require (∀ tag ∈ required.keys, ∃ entry ∈ supported, entry.1 = tag)
    (.invalidInput "required feature")
  FeatureOffer.new supported required.keys

variable {sha256 : Hash} {tag : FeatureTag} {digest : Digest}

lemma mem_definitionDigests {entries : List (FeatureTag × FeatureDefinition)}
    {digests : List (FeatureTag × Digest)} (h : definitionDigests sha256 entries = .ok digests) :
    (tag, digest) ∈ digests ↔
      ∃ definition, (tag, definition) ∈ entries ∧ definition.definitionDigest sha256 =
        .ok digest := by
  induction entries generalizing digests with
  | nil =>
    obtain rfl := Except.ok.inj h
    simp
  | cons entry entries ih =>
    obtain ⟨head, definition⟩ := entry
    obtain ⟨first, hfirst, h⟩ := bind_eq_ok.mp h
    obtain ⟨rest, hrest, h⟩ := bind_eq_ok.mp h
    obtain rfl := Except.ok.inj h
    rw [List.mem_cons, ih hrest]
    constructor
    · rintro (heq | ⟨d, hd, hdigest⟩)
      · obtain ⟨rfl, rfl⟩ := Prod.mk.inj heq
        exact ⟨definition, List.mem_cons_self, hfirst⟩
      · exact ⟨d, List.mem_cons_of_mem _ hd, hdigest⟩
    · rintro ⟨d, hd, hdigest⟩
      rcases List.mem_cons.mp hd with heq | hd
      · obtain ⟨rfl, rfl⟩ := Prod.mk.inj heq
        exact .inl (Prod.ext rfl (Except.ok.inj (hdigest.symm.trans hfirst)))
      · exact .inr ⟨d, hd, hdigest⟩

variable {offer : FeatureOffer}

lemma FeatureOffer.new_eq_ok {supported : List (FeatureTag × Digest)} {required : List FeatureTag}
    (h : new supported required = .ok offer) :
    (∀ entry, entry ∈ offer.supported ↔ entry ∈ supported) ∧
      ∀ tag, tag ∈ offer.required ↔ tag ∈ required := by
  unfold new at h
  split_ifs at h
  unfold finalize at h
  dsimp only at h
  split_ifs at h
  obtain rfl := Except.ok.inj h
  exact ⟨fun _ => List.mem_insertionSort _, fun _ => List.mem_insertionSort _⟩

variable {registry : FeatureRegistry} {callerRequired : OrdSet FeatureTag}

/-- **What a node offers** is what it has registered. -/
theorem mem_supported_nodeOffer (h : nodeOffer sha256 registry callerRequired = .ok offer) :
    (tag, digest) ∈ offer.supported ↔
      ∃ definition, registry.get tag = some definition ∧
        definition.definitionDigest sha256 = .ok digest := by
  obtain ⟨supported, hsupported, h⟩ := bind_eq_ok.mp h
  obtain ⟨session, -, h⟩ := bind_eq_ok.mp h
  obtain ⟨-, h⟩ := require_bind_eq_ok.mp h
  rw [(FeatureOffer.new_eq_ok h).1, mem_definitionDigests hsupported]
  exact exists_congr fun d => and_congr_left' OrdMap.get?_eq_some.symm

lemma required_nodeOffer (h : nodeOffer sha256 registry callerRequired = .ok offer) :
    callerRequired.members ⊆ {tag | tag ∈ offer.required} := by
  obtain ⟨supported, -, h⟩ := bind_eq_ok.mp h
  obtain ⟨session, -, h⟩ := bind_eq_ok.mp h
  obtain ⟨-, h⟩ := require_bind_eq_ok.mp h
  intro tag htag
  refine ((FeatureOffer.new_eq_ok h).2 tag).mpr (OrdSet.mem_keys.mpr ?_)
  rw [OrdSet.members_foldl_add]
  exact .inl htag

end Radiata.Protocol
