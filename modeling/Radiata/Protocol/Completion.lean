import Radiata.Protocol.Agreement
import Radiata.Protocol.HandshakeSizes

/-!
# When honest handshakes complete

Two honest endpoints of complementary roles exchange their messages in lockstep.  Every hello,
proof and confirmation they build is accepted by the other's decoder; the one object that may be
refused is the transcript, whose two offers and selection share the limit of one control body.
The exchange authenticates both endpoints exactly when their transcript fits.
-/

namespace Radiata.Protocol

open Lib Lib.Cbor Lib.Checked Reconcile
open Identity (FixedBytes PublicKey Signature)
open List (finRange forall_mem_cons length_map map_cons map_map map_nil not_mem_nil sum_cons
  sum_nil)
open Fields (last)
open Subtype (val)

/-! ## Reading an encoded message -/

lemma decodeWire_of_encode {α : Type} {codec : Codec α} {value : α} {bytes : List UInt8}
    (h : encodeCanonical codec value controlCborLimits = .ok bytes) :
    decodeWire codec bytes = .ok value := by
  obtain ⟨rfl, hlen, hvalid⟩ := encodeCanonical_eq_ok.mp h
  have hbound := controlCborLimits.maxBodyLen.toNat_lt
  have hparse := codec.parse_encode value [] (by omega)
  rw [List.append_nil] at hparse
  have hdecode : decodeCanonical codec (codec.toItem value).encode controlCborLimits =
      .ok value := by
    rw [decodeCanonical, hvalid, hparse]
    rfl
  rw [decodeWire, hdecode]
  refine bind_ok_iff.mpr ⟨value, rfl, bind_ok_iff.mpr ⟨_, by rw [h]; rfl, ?_⟩⟩
  exact ensure_bind_eq_ok.mpr ⟨rfl, rfl⟩

variable {kind : HandshakeKind} {bytes : List UInt8} {p : Primitives} {h : Handshake}

section Messages

variable {α : Type} {f : Fields α} {rest : α}

lemma find_kind (kind : HandshakeKind) :
    (HandshakeKind.all.find? fun handshake => handshake.kindId = kind.kindId) = some kind := by
  cases kind <;> rfl

lemma probe_of_encode
    (h : encodeCanonical (.array (.cons .u64 f)) (kind.kindId, rest) controlCborLimits =
      .ok bytes) :
    probe bytes = .ok (f.arity + 1, kind) := by
  obtain ⟨rfl, hlen, -⟩ := encodeCanonical_eq_ok.mp h
  have hbound := controlCborLimits.maxBodyLen.toNat_lt
  have hitem : ((Codec.array (.cons .u64 f)).toItem (kind.kindId, rest)).encode =
      header 4 (f.arity + 1) ++ ((Codec.u64.toItem kind.kindId).encode ++
        Item.encodeList (f.toItems rest)) := by
    show (Item.array (Codec.u64.toItem kind.kindId :: f.toItems rest)).encode = _
    rw [Item.encode, List.length_cons, f.length_toItems, Item.encodeList]
  rw [hitem] at hlen ⊢
  simp only [List.length_append] at hlen
  have hcount := Item.length_le_length_encodeList (f.toItems rest)
  have hpos := Item.length_encode_pos (Codec.u64.toItem kind.kindId)
  rw [f.length_toItems] at hcount
  rw [probe, Codec.parseArrayHeader_append (by omega)]
  refine bind_ok_iff.mpr ⟨_, rfl, bind_ok_iff.mpr
    ⟨(kind.kindId, Item.encodeList (f.toItems rest)), ?_, ?_⟩⟩
  · exact orError_eq_ok.mpr (Codec.u64.parse_encode kind.kindId _ (by omega))
  · exact bind_ok_iff.mpr ⟨kind, orError_eq_ok.mpr (find_kind kind), rfl⟩

namespace Handshake

variable {next : Handshake}

def advanced (h : Handshake) : Handshake := { h with completed := h.completed + 1 }

/-- **An encoded message of the next position reaches the check of its kind.** -/
theorem receive_of_encode
    (henc : encodeCanonical (.array (.cons .u64 f)) (kind.kindId, rest) controlCborLimits =
      .ok bytes)
    (harity : f.arity + 1 = kind.arity) (hsender : kind.sender ≠ h.config.role)
    (hturn : kind.position = h.completed + 1) (hlast : kind.position ≤ protocolPositions) :
    h.receive p bytes = (h.receiveAt p kind bytes).map advanced := by
  have hvalid := (encodeCanonical_eq_ok.mp henc).2.2
  have hkind : kind ≠ .mergeGrantDelivery := by
    rintro rfl
    exact absurd hlast (by decide)
  unfold receive
  rw [replaceError_eq_ok.mpr hvalid, bind_of_ok, probe_of_encode henc, bind_of_ok]
  dsimp only
  rw [ensure_bind harity, ensure_bind hsender, if_neg hkind]
  unfold receiveNext
  rw [ensure_bind (by omega), ensure_bind (by omega), ensure_bind hturn.le]
  cases h.receiveAt p kind bytes with
  | error error | ok next => rfl

end Handshake

end Messages

/-! ## Honest pairs -/

namespace HandshakeConfig

variable (config : HandshakeConfig)

def view : HelloView :=
  ⟨config.localId, config.localKey, config.localNonce,
    (offerCodec.toItem config.localOffer.wire).encode, config.localOffer⟩

def ModeInputs : Prop :=
  match config.mode with
  | .merge => config.generation.isSome = true ∧ config.credential.isSome = true
  | .member => config.generation = none ∧ config.credential = none ∧ config.expectedPeer.isSome =
      true

structure Accepts (config peer : HandshakeConfig) : Prop where
  distinct : ¬(peer.localId = config.localId ∨ peer.localKey = config.localKey)
  expected : ∀ e ∈ config.expectedPeer, e = (peer.localId, peer.localKey)

end HandshakeConfig

def Handshake.fresh (config : HandshakeConfig) (registry : FeatureRegistry) : Handshake :=
  ⟨config, registry, 0, config.view, none, none, none, false, none⟩

lemma Handshake.new_eq_fresh {config : HandshakeConfig} (registry : FeatureRegistry)
    (h : config.ModeInputs) : Handshake.new config registry = .ok (fresh config registry) := by
  unfold HandshakeConfig.ModeInputs at h
  unfold Handshake.new
  cases hmode : config.mode with
  | merge | member =>
    rw [hmode] at h
    refine ensure_bind_eq_ok.mpr ⟨h, bind_ok_iff.mpr ⟨_, replaceError_eq_ok.mpr
      (offer_encodes config.localOffer), rfl⟩⟩

/-- Two honest configurations that match and whose offers have a selection. -/
structure HonestPair (p : Primitives) (sign : Role → List UInt8 → Signature)
    (initiator responder : HandshakeConfig) (left right : FeatureRegistry)
    (selection : Selection) : Prop where
  initiates : initiator.role = .initiator
  responds : responder.role = .responder
  mode : initiator.mode = responder.mode
  generation : initiator.generation = responder.generation
  credential : initiator.credential = responder.credential
  channelBinding : initiator.channelBinding = responder.channelBinding
  inputs : initiator.ModeInputs ∧ responder.ModeInputs
  accepts : initiator.Accepts responder ∧ responder.Accepts initiator
  selectsLeft : select p.sha256 left initiator.localOffer responder.localOffer
    initiator.localOffer.required responder.localOffer.required = .ok selection
  selectsRight : select p.sha256 right responder.localOffer initiator.localOffer
    responder.localOffer.required initiator.localOffer.required = .ok selection
  signs : (∀ m, p.verify initiator.localKey m (sign .initiator m) = true) ∧
    ∀ m, p.verify responder.localKey m (sign .responder m) = true

def pairTranscript (initiator responder : HandshakeConfig) (selection : Selection) : List UInt8 :=
  (transcriptCodec.toItem (transcriptWire initiator.mode initiator.generation initiator.view
    responder.view selection.bytes initiator.channelBinding)).encode

/-- **The exchange in lockstep**: the order in which the two drivers call their endpoints. -/
def exchange (p : Primitives) (sign : Role → List UInt8 → Signature) (i r : Handshake) :
    Except HandshakeError (Handshake × Handshake) := do
  let (hello, i) ← i.initiatorHello
  let r ← r.receive p hello
  let (answer, r) ← r.responderHello
  let transcript ← orError r.transcript (.state "handshake transcript")
  let (proof, r) ← r.responderProof p
      (sign .responder (responderSessionMessage p.sha256 transcript))
  let i ← i.receive p answer
  let i ← i.receive p proof
  let transcript ← orError i.transcript (.state "handshake transcript")
  let (proof, i) ← i.initiatorProof p
      (sign .initiator (initiatorSessionMessage p.sha256 transcript))
  let r ← r.receive p proof
  let (confirmation, r) ← r.selectionConfirmation
  let i ← i.receive p confirmation
  pure (i, r)

/-! ## The transcript -/

lemma within_transcript (mode : HandshakeMode) (generation : Option (FixedBytes 16))
    (a b : HelloView) (selection : List UInt8) (binding : FixedBytes 32) :
    (transcriptCodec.toItem (transcriptWire mode generation a b selection binding)).Within 16
      1024 := by
  refine .array (show 10 ≤ 1024 by decide) ?_
  simp only [Fields.cons, last, forall_mem_cons, not_mem_nil, false_imp_iff,
    implies_true, and_true]
  have htwo : 2 ≤ 1024 := by decide
  exact ⟨within_chars _, within_u64 _, within_chars _, within_optional _,
    .vec htwo fun t _ => within_chars t, .vec htwo fun pair _ => within_pair pair,
    .vec htwo fun x _ => within_byteVec x, .vec htwo fun x _ => within_byteVec x, within_byteVec _,
    within_byteVec _⟩

variable (mode : HandshakeMode) (generation : Option (FixedBytes 16)) (a b : HelloView)
  (selection : List UInt8) (binding : FixedBytes 32)

lemma assembleTranscript_eq : assembleTranscript mode generation a b selection binding =
      if (transcriptCodec.toItem
          (transcriptWire mode generation a b selection binding)).encode.length ≤ 65536 then
        .ok (transcriptCodec.toItem (transcriptWire mode generation a b selection binding)).encode
      else .error (.malformed "handshake transcript") := by
  unfold assembleTranscript
  split_ifs with hlen
  · rw [encode_control (within_transcript mode generation a b selection binding) hlen]
    rfl
  · rw [encodeCanonical_too_long (Nat.lt_of_not_le hlen)]
    rfl

/-! ## The messages of an honest endpoint -/

lemma fixedField_val {n : ℕ} (field : FixedBytes n) (context : String) :
    fixedField n field.1 context = .ok field :=
  replaceError_eq_ok.mpr (dif_pos field.2)

lemma optionalField_val {n : ℕ} (field : Option (FixedBytes n)) (context : String) :
    optionalField n (field.map val) context = .ok field := by
  cases field with
  | none => rfl
  | some field =>
    show (fixedField n field.1 context).map some = _
    rw [fixedField_val]
    rfl

lemma length_view_offer_le (config : HandshakeConfig) :
    (Codec.byteVec.toItem config.view.offerBytes).encode.length ≤ 37768 := by
  have hoffer : config.view.offerBytes.length ≤ 37765 := length_offer_le config.localOffer
  have hle := length_payload_le (show config.view.offerBytes.length < 2 ^ 16 by omega)
  omega

namespace Handshake

lemma send_eq {α : Type} {codec : Codec α} {wire : α}
    (henc : encodeCanonical codec wire controlCborLimits = .ok bytes) :
    h.finishSend codec wire = .ok (bytes, h.advanced) :=
  bind_ok_iff.mpr ⟨bytes, replaceError_eq_ok.mpr henc, rfl⟩

lemma beginSend_of_turn (hrole : h.config.role = kind.sender)
    (hturn : h.completed + 1 = kind.position) : h.beginSend kind = .ok () :=
  ensure_bind_eq_ok.mpr ⟨hrole, ensure_eq_ok.mpr hturn⟩

lemma initiatorHello_eq (hview : h.localView = h.config.view) (hrole : h.config.role = .initiator)
    (hturn : h.completed = 0) : ∃ bytes,
      encodeCanonical initiatorHelloCodec h.initiatorHelloWire controlCborLimits = .ok bytes ∧
      h.initiatorHello = .ok (bytes, h.advanced) := by
  have hoffer := length_view_offer_le h.config
  have hmode := length_mode_le h.config.mode
  have hgeneration : (optionalBytesCodec.toItem
      (h.config.generation.map val)).encode.length ≤ 17 :=
    length_optional_le h.config.generation
  have hid := length_nodeId h.config.localId
  have hkey : (Codec.byteVec.toItem h.config.localKey.1).encode.length = 34 := length_fixed _
  have hnonce : (Codec.byteVec.toItem h.config.localNonce.1).encode.length = 34 := length_fixed _
  have henc := encode_message (.cons .chars (.cons optionalBytesCodec (.cons .chars (.cons .byteVec
    (.cons .byteVec (.last .byteVec)))))) .initiatorHello
    (h.config.mode.text, h.config.generation.map val, h.config.localId.text,
      h.config.localKey.1, h.config.localNonce.1, h.config.view.offerBytes) (by decide)
    (by
      simp only [Fields.cons, last, forall_mem_cons, not_mem_nil, false_imp_iff,
        implies_true, and_true]
      exact ⟨within_chars _, within_optional _, within_chars _, within_byteVec _, within_byteVec _,
        within_byteVec _⟩)
    (by
      simp only [Fields.cons, last, map_cons, map_nil, sum_cons, sum_nil]
      omega)
  rw [← hview] at henc
  exact ⟨_, henc, bind_ok_iff.mpr ⟨(), beginSend_of_turn hrole (by rw [hturn]; rfl), send_eq henc⟩⟩

lemma responderHello_eq (hview : h.localView = h.config.view) (hrole : h.config.role = .responder)
    (hturn : h.completed = 1) : ∃ bytes,
      encodeCanonical responderHelloCodec h.responderHelloWire controlCborLimits = .ok bytes ∧
      h.responderHello = .ok (bytes, h.advanced) := by
  have hoffer := length_view_offer_le h.config
  have hid := length_nodeId h.config.localId
  have hkey : (Codec.byteVec.toItem h.config.localKey.1).encode.length = 34 := length_fixed _
  have hnonce : (Codec.byteVec.toItem h.config.localNonce.1).encode.length = 34 := length_fixed _
  have henc := encode_message (.cons .chars (.cons .byteVec (.cons .byteVec (.last .byteVec))))
    .responderHello
    (h.config.localId.text, h.config.localKey.1, h.config.localNonce.1, h.config.view.offerBytes)
    (by decide)
    (by
      simp only [Fields.cons, last, forall_mem_cons, not_mem_nil, false_imp_iff,
        implies_true, and_true]
      exact ⟨within_chars _, within_byteVec _, within_byteVec _, within_byteVec _⟩)
    (by
      simp only [Fields.cons, last, map_cons, map_nil, sum_cons, sum_nil]
      omega)
  rw [← hview] at henc
  exact ⟨_, henc, bind_ok_iff.mpr ⟨(), beginSend_of_turn hrole (by rw [hturn]; rfl), send_eq henc⟩⟩

def credentialProof (p : Primitives) (config : HandshakeConfig) (role : Role) (t : List UInt8) :
    Option (FixedBytes 32) :=
  match config.mode with
  | .member => none
  | .merge => config.credential.map fun secret =>
    p.deriveProof role config.channelBinding secret (bodyDigest p.sha256 t)

variable {t : List UInt8}

lemma deriveLocalProof_eq (hinputs : h.config.ModeInputs) (ht : h.transcript = some t)
    (role : Role) : h.deriveLocalProof p role = .ok (credentialProof p h.config role t) := by
  unfold HandshakeConfig.ModeInputs at hinputs
  unfold deriveLocalProof credentialProof
  cases hmode : h.config.mode with
  | member => rfl
  | merge =>
    rw [hmode] at hinputs
    obtain ⟨secret, hsecret⟩ := Option.isSome_iff_exists.mp hinputs.2
    rw [hsecret]
    refine bind_ok_iff.mpr ⟨secret, rfl, bind_ok_iff.mpr ⟨bodyDigest p.sha256 t, ?_, rfl⟩⟩
    rw [transcriptDigest, ht]
    rfl

lemma sendProof_eq (hinputs : h.config.ModeInputs) (ht : h.transcript = some t)
    (hrole : h.config.role = kind.sender) (hturn : h.completed + 1 = kind.position)
    (signature : Signature) : ∃ bytes,
      encodeCanonical proofCodec (kind.kindId,
        (credentialProof p h.config kind.sender t).map val, signature.1) controlCborLimits =
          .ok bytes ∧
      h.sendProof p kind signature = .ok (bytes, h.advanced) := by
  have hproof : (optionalBytesCodec.toItem
      ((credentialProof p h.config kind.sender t).map val)).encode.length ≤ 34 :=
    length_optional_le _
  have hsignature : (Codec.byteVec.toItem signature.1).encode.length = 66 := length_fixed _
  have henc := encode_message (.cons optionalBytesCodec (.last .byteVec)) kind
    ((credentialProof p h.config kind.sender t).map val, signature.1) (by decide)
    (by
      simp only [Fields.cons, last, forall_mem_cons, not_mem_nil, false_imp_iff,
        implies_true, and_true]
      exact ⟨within_optional _, within_byteVec _⟩)
    (by
      simp only [Fields.cons, last, map_cons, map_nil, sum_cons, sum_nil]
      omega)
  exact ⟨_, henc, bind_ok_iff.mpr ⟨(), beginSend_of_turn hrole hturn, bind_ok_iff.mpr
    ⟨_, deriveLocalProof_eq hinputs ht kind.sender, send_eq henc⟩⟩⟩

/-! ## What the peer accepts -/

lemma acceptPeerHello_view {peer : HandshakeConfig} (haccepts : h.config.Accepts peer) :
    h.acceptPeerHello p peer.localId.text peer.localKey.1 peer.localNonce.1 peer.view.offerBytes =
      h.finalizeHellos p peer.view := by
  have hid : NodeId.parse peer.localId.text = .ok peer.localId :=
    CanonicalId.parse_text peer.localId _
  have hoffer : FeatureOffer.decode peer.view.offerBytes = .ok peer.localOffer :=
    FeatureOffer.decode_encode (offer_encodes peer.localOffer)
  unfold acceptPeerHello
  rw [replaceError_eq_ok.mpr hid, bind_of_ok, fixedField_val, bind_of_ok, fixedField_val,
    bind_of_ok,
    ensure_bind haccepts.distinct, ensure_bind haccepts.expected, replaceError_eq_ok.mpr hoffer,
    bind_of_ok]
  rfl

lemma finalizeHellos_of_select {peer : HelloView} {selection : Selection}
    (hselect : select p.sha256 h.registry h.localView.offer peer.offer h.localView.offer.required
      peer.offer.required = .ok selection) :
    h.finalizeHellos p peer = (assembleTranscript h.config.mode h.config.generation
      (h.inRoleOrder peer).1 (h.inRoleOrder peer).2 selection.bytes h.config.channelBinding).map
        fun t => { h with
          peerHello := some peer, selection := some selection, transcript := some t } := by
  unfold finalizeHellos
  rw [hselect, show Except.mapError HandshakeError.selection (.ok selection) =
    .ok selection from rfl,
    bind_of_ok]
  dsimp only
  cases assembleTranscript h.config.mode h.config.generation (h.inRoleOrder peer).1
      (h.inRoleOrder peer).2 selection.bytes h.config.channelBinding with
  | error error => rfl
  | ok t => rfl

section

variable (hinputs : h.config.ModeInputs)
include hinputs

lemma checkGeneration_self : h.checkGeneration h.config.generation = .ok () := by
  unfold HandshakeConfig.ModeInputs at hinputs
  unfold checkGeneration
  cases hmode : h.config.mode with
  | merge =>
    rw [hmode] at hinputs
    obtain ⟨generation, hgeneration⟩ := Option.isSome_iff_exists.mp hinputs.1
    rw [hgeneration]
    exact ensure_eq_ok.mpr rfl
  | member =>
    rw [hmode] at hinputs
    rw [hinputs.1]

lemma checkProof_credentialProof (ht : h.transcript = some t) (role : Role) :
    h.checkProof p role (credentialProof p h.config role t) = .ok () := by
  unfold HandshakeConfig.ModeInputs at hinputs
  unfold checkProof credentialProof
  cases hmode : h.config.mode with
  | member => rfl
  | merge =>
    rw [hmode] at hinputs
    obtain ⟨secret, hsecret⟩ := Option.isSome_iff_exists.mp hinputs.2
    rw [hsecret]
    refine bind_ok_iff.mpr ⟨secret, rfl, bind_ok_iff.mpr ⟨bodyDigest p.sha256 t, ?_, ?_⟩⟩
    · rw [transcriptDigest, ht]
      rfl
    · exact ensure_eq_ok.mpr (beq_self_eq_true _)

lemma receiveProof_of_encode {role : Role} {number : UInt64} {peer : HelloView}
    {signature : Signature} (ht : h.transcript = some t) (hpeer : h.peerHello = some peer)
    (henc : encodeCanonical proofCodec (number, (credentialProof p h.config role t).map
      val, signature.1) controlCborLimits = .ok bytes)
    (hverify : p.verify peer.publicKey (signatureMessage p.sha256 (sessionDomain role) t) signature
      = true) : h.receiveProof p role bytes = .ok h := by
  refine bind_ok_iff.mpr ⟨_, decodeWire_of_encode henc, bind_ok_iff.mpr
    ⟨_, optionalField_val _ _, bind_ok_iff.mpr ⟨(), checkProof_credentialProof hinputs ht role,
      bind_ok_iff.mpr ⟨signature, fixedField_val _ _, bind_ok_iff.mpr ⟨peer, ?_, bind_ok_iff.mpr
        ⟨t, ?_, ensure_bind_eq_ok.mpr ⟨hverify, rfl⟩⟩⟩⟩⟩⟩⟩
  · rw [hpeer]
    rfl
  · rw [ht]
    rfl

end

lemma receiveInitiatorHello_view (peer : Handshake) (hview : peer.localView = peer.config.view)
    (hmode : peer.config.mode = h.config.mode)
    (hgeneration : peer.config.generation = h.config.generation) (hinputs : h.config.ModeInputs)
    (haccepts : h.config.Accepts peer.config)
    (henc : encodeCanonical initiatorHelloCodec peer.initiatorHelloWire controlCborLimits = .ok
      bytes) : h.receiveInitiatorHello p bytes = h.finalizeHellos p peer.config.view := by
  unfold receiveInitiatorHello
  rw [decodeWire_of_encode henc, bind_of_ok]
  dsimp only [initiatorHelloWire]
  rw [HandshakeMode.parse_text, bind_of_ok, ensure_bind hmode, optionalField_val, bind_of_ok,
    hgeneration, checkGeneration_self hinputs, bind_of_ok, hview, acceptPeerHello_view haccepts]

lemma receiveResponderHello_view (peer : Handshake) (hview : peer.localView = peer.config.view)
    (haccepts : h.config.Accepts peer.config)
    (henc : encodeCanonical responderHelloCodec peer.responderHelloWire controlCborLimits = .ok
      bytes) : h.receiveResponderHello p bytes = h.finalizeHellos p peer.config.view := by
  unfold receiveResponderHello
  rw [decodeWire_of_encode henc, bind_of_ok]
  dsimp only [responderHelloWire]
  rw [hview, acceptPeerHello_view haccepts]

end Handshake

/-! ## Selections -/

variable {registry : FeatureRegistry} {a b : FeatureOffer} {required : Set FeatureTag}
  {selection : Selection}

lemma Selects.length_features_le {sha256 : Hash}
    (h : Selects sha256 registry a b required selection) : selection.features.length ≤ 128 := by
  have hsubset : selection.features ⊆ a.supported.map Prod.fst := by
    intro tag htag
    obtain ⟨digest, hdigest⟩ := Option.isSome_iff_exists.mp (h.greatest.1.1 htag).1
    exact List.mem_map.mpr ⟨(tag, digest), FeatureOffer.supportedDigest_eq_some.mp hdigest, rfl⟩
  have hnodup : selection.features.Nodup := h.sorted.imp ne_of_lt
  have hle := (hnodup.subperm hsubset).length_le
  rw [length_map] at hle
  exact hle.trans a.supported_bounded

lemma Selects.length_bytes_le {sha256 : Hash} {registry : FeatureRegistry} {a b : FeatureOffer}
    {required : Set FeatureTag} {selection : Selection}
    (h : Selects sha256 registry a b required selection) : selection.bytes.length ≤ 16643 := by
  have hcount := h.length_features_le
  have hvec := length_vec_le .chars (selection.features.map fun tag => tag.tag.value) 130
    (by rw [length_map]; omega)
    (by
      intro a ha
      obtain ⟨tag, -, rfl⟩ := List.mem_map.mp ha
      exact length_label_le tag)
  rw [length_map] at hvec
  have hitem : (selectionCodec.toItem
      (selection.features.map fun tag => tag.tag.value)).encode.length =
      1 + (Codec.chars.vec.toItem
        (selection.features.map fun tag => tag.tag.value)).encode.length := by
    rw [show selectionCodec.toItem (selection.features.map fun tag => tag.tag.value) =
      .array [Codec.chars.vec.toItem (selection.features.map fun tag => tag.tag.value)] from rfl,
      Item.length_encode_array, List.map_singleton, List.sum_singleton]
    rfl
  rw [(encodeCanonical_eq_ok.mp h.bytes).1, hitem]
  omega

lemma confirmation_encodes (hlen : selection.bytes.length ≤ 16643) :
    ∃ bytes, encodeCanonical payloadCodec
      (HandshakeKind.selectionConfirmation.kindId, selection.bytes) controlCborLimits =
        .ok bytes := by
  have hpayload := length_payload_le (show selection.bytes.length < 2 ^ 16 by omega)
  refine ⟨_, encode_message (.last .byteVec) .selectionConfirmation selection.bytes (by decide) ?_
    ?_⟩
  · simp only [last, forall_mem_cons, not_mem_nil, false_imp_iff, implies_true,
      and_true]
    exact within_byteVec _
  · simp only [last, map_cons, map_nil, sum_cons, sum_nil]
    omega

/-! ## The exchange -/

section Exchange

variable {sign : Role → List UInt8 → Signature}
variable {initiator responder : HandshakeConfig} {left right : FeatureRegistry}
    {selection : Selection}

def Handshake.finalized (h : Handshake) (peer : HandshakeConfig) (selection : Selection)
    (t : List UInt8) : Handshake :=
  { h with peerHello := some peer.view, selection := some selection, transcript := some t }

section

variable (pair : HonestPair p sign initiator responder left right selection)
include pair

lemma HonestPair.assembles :
    assembleTranscript responder.mode responder.generation initiator.view responder.view
        selection.bytes responder.channelBinding =
      assembleTranscript initiator.mode initiator.generation initiator.view responder.view
        selection.bytes initiator.channelBinding := by
  rw [pair.mode, pair.generation, pair.channelBinding]

lemma HonestPair.hello : ∃ bytes, (Handshake.fresh initiator left).initiatorHello =
        .ok (bytes, (Handshake.fresh initiator left).advanced) ∧
      (Handshake.fresh responder right).receive p bytes =
        (assembleTranscript initiator.mode initiator.generation initiator.view responder.view
          selection.bytes initiator.channelBinding).map fun t =>
            ((Handshake.fresh responder right).finalized initiator selection t).advanced := by
  obtain ⟨bytes, henc, hsend⟩ :=
    Handshake.initiatorHello_eq (h := Handshake.fresh initiator left) rfl pair.initiates rfl
  refine ⟨bytes, hsend, ?_⟩
  have hsender : HandshakeKind.initiatorHello.sender ≠
      (Handshake.fresh responder right).config.role := by
    show Role.initiator ≠ responder.role
    rw [pair.responds]
    decide
  have hat : (Handshake.fresh responder right).receiveAt p .initiatorHello bytes =
      (Handshake.fresh responder right).finalizeHellos p initiator.view :=
    Handshake.receiveInitiatorHello_view (Handshake.fresh initiator left) rfl pair.mode
      pair.generation
      pair.inputs.2 pair.accepts.2 henc
  have horder : (Handshake.fresh responder right).inRoleOrder initiator.view =
      (initiator.view, responder.view) := by
    simp only [Handshake.inRoleOrder, Handshake.fresh, pair.responds]
  rw [Handshake.receive_of_encode henc rfl hsender rfl (by decide), hat,
    Handshake.finalizeHellos_of_select pair.selectsRight, horder]
  show ((assembleTranscript responder.mode responder.generation initiator.view responder.view
    selection.bytes responder.channelBinding).map _).map _ = _
  rw [pair.assembles]
  cases assembleTranscript initiator.mode initiator.generation initiator.view responder.view
      selection.bytes initiator.channelBinding with
  | error error => rfl
  | ok t => rfl

lemma HonestPair.refused
    (hlong : 65536 < (pairTranscript initiator responder selection).length) :
    exchange p sign (Handshake.fresh initiator left) (Handshake.fresh responder right) =
      .error (.malformed "handshake transcript") := by
  obtain ⟨bytes, hsend, hreceive⟩ := pair.hello
  have hassemble : assembleTranscript initiator.mode initiator.generation initiator.view
      responder.view selection.bytes initiator.channelBinding =
        .error (.malformed "handshake transcript") := by
    rw [assembleTranscript_eq]
    exact if_neg (Nat.not_le.mpr hlong)
  unfold exchange
  rw [hsend, bind_of_ok]
  dsimp only
  rw [hreceive, hassemble]
  rfl

lemma HonestPair.answer {r : Handshake} (hconfig : r.config = responder)
    (hview : r.localView = responder.view)
    (hturn : r.completed = 1) {t : List UInt8}
    (ht : assembleTranscript initiator.mode initiator.generation initiator.view responder.view
      selection.bytes initiator.channelBinding = .ok t) :
    ∃ bytes, r.responderHello = .ok (bytes, r.advanced) ∧
      (Handshake.fresh initiator left).advanced.receive p bytes =
        .ok ((Handshake.fresh initiator left).advanced.finalized responder selection
          t).advanced := by
  subst hconfig
  obtain ⟨bytes, henc, hsend⟩ := Handshake.responderHello_eq hview pair.responds hturn
  refine ⟨bytes, hsend, ?_⟩
  have hsender : HandshakeKind.responderHello.sender ≠
      (Handshake.fresh initiator left).advanced.config.role := by
    show Role.responder ≠ initiator.role
    rw [pair.initiates]
    decide
  have hat : (Handshake.fresh initiator left).advanced.receiveAt p .responderHello bytes =
      (Handshake.fresh initiator left).advanced.finalizeHellos p r.config.view :=
    Handshake.receiveResponderHello_view r hview pair.accepts.1 henc
  have horder : (Handshake.fresh initiator left).advanced.inRoleOrder r.config.view =
      (initiator.view, r.config.view) := by
    simp only [Handshake.inRoleOrder, Handshake.fresh, Handshake.advanced, pair.initiates]
  rw [Handshake.receive_of_encode henc rfl hsender rfl (by decide), hat,
    Handshake.finalizeHellos_of_select pair.selectsLeft, horder]
  show ((assembleTranscript initiator.mode initiator.generation initiator.view r.config.view
    selection.bytes initiator.channelBinding).map _).map _ = _
  rw [ht]
  rfl

lemma HonestPair.credentialProof_eq (role : Role) (t : List UInt8) :
    Handshake.credentialProof p initiator role t =
      Handshake.credentialProof p responder role t := by
  unfold Handshake.credentialProof
  rw [pair.mode, pair.credential, pair.channelBinding]

end

lemma proof_accepted (p : Primitives) (sender receiver : Handshake) (kind : HandshakeKind)
    (peer : HelloView) (t : List UInt8) (signature : Signature)
    (hkind : kind = Handshake.proofKind kind.sender) (hs : sender.config.ModeInputs)
    (hr : receiver.config.ModeInputs) (hts : sender.transcript = some t)
    (htr : receiver.transcript = some t) (hrole : sender.config.role = kind.sender)
    (hother : kind.sender ≠ receiver.config.role) (hturn : sender.completed + 1 = kind.position)
    (hturn' : kind.position = receiver.completed + 1) (hpeer : receiver.peerHello = some peer)
    (hproof : Handshake.credentialProof p sender.config kind.sender t =
      Handshake.credentialProof p receiver.config kind.sender t)
    (hverify : p.verify peer.publicKey
      (signatureMessage p.sha256 (sessionDomain kind.sender) t) signature = true) :
    ∃ bytes, sender.sendProof p kind signature = .ok (bytes, sender.advanced) ∧
      receiver.receive p bytes = .ok receiver.advanced := by
  obtain ⟨bytes, henc, hsend⟩ := Handshake.sendProof_eq hs hts hrole hturn signature
  refine ⟨bytes, hsend, ?_⟩
  rw [hproof] at henc
  have haccept := Handshake.receiveProof_of_encode hr htr hpeer henc hverify
  have harity : (Fields.cons optionalBytesCodec (.last .byteVec)).arity + 1 = kind.arity := by
    rw [hkind]
    cases kind.sender <;> rfl
  have hlast : kind.position ≤ protocolPositions := by
    rw [hkind]
    cases kind.sender <;> decide
  have hat : receiver.receiveAt p kind bytes = .ok receiver := by
    cases kind with
    | responderProof | initiatorProof => exact haccept
    | initiatorHello | responderHello | selectionConfirmation | mergeGrantDelivery =>
      exact absurd hkind (by decide)
  rw [Handshake.receive_of_encode henc harity hother hturn' hlast, hat]
  rfl

lemma confirmation_accepted (p : Primitives) (sender receiver : Handshake)
    (hlen : selection.bytes.length ≤ 16643) (hrole : sender.config.role = .responder)
    (hother : receiver.config.role = .initiator) (hturn : sender.completed = 4)
    (hturn' : receiver.completed = 4) (hs : sender.selection = some selection)
    (hr : receiver.selection = some selection) :
    ∃ bytes, sender.selectionConfirmation = .ok (bytes, sender.advanced) ∧
      receiver.receive p bytes = .ok receiver.advanced := by
  obtain ⟨bytes, henc⟩ := confirmation_encodes hlen
  have hsender : HandshakeKind.selectionConfirmation.sender ≠ receiver.config.role := by
    rw [hother]
    decide
  have hat : receiver.receiveAt p .selectionConfirmation bytes = .ok receiver :=
    bind_ok_iff.mpr ⟨_, decodeWire_of_encode henc, bind_ok_iff.mpr
      ⟨selection, orError_eq_ok.mpr hr, ensure_bind_eq_ok.mpr ⟨rfl, rfl⟩⟩⟩
  refine ⟨bytes, ?_, ?_⟩
  · exact bind_ok_iff.mpr ⟨(), Handshake.beginSend_of_turn hrole (by rw [hturn]; rfl),
      bind_ok_iff.mpr
      ⟨selection, orError_eq_ok.mpr hs, Handshake.send_eq henc⟩⟩
  · rw [Handshake.receive_of_encode henc rfl hsender (by rw [hturn']; rfl) (by decide), hat]
    rfl

lemma HonestPair.completes (h : HonestPair p sign initiator responder left right selection)
    (hfits : (pairTranscript initiator responder selection).length ≤ 65536) :
    ∃ i r, exchange p sign (Handshake.fresh initiator left) (Handshake.fresh responder right) =
      .ok (i, r) ∧ i.isAuthenticated = true ∧ r.isAuthenticated = true := by
  have ht : assembleTranscript initiator.mode initiator.generation initiator.view responder.view
      selection.bytes initiator.channelBinding =
        .ok (pairTranscript initiator responder selection) := by
    rw [assembleTranscript_eq]
    exact if_pos hfits
  generalize pairTranscript initiator responder selection = t at ht
  obtain ⟨hello, hsend, hreceive⟩ := h.hello
  rw [ht] at hreceive
  obtain ⟨r₁, hr₁⟩ : ∃ r, r =
      ((Handshake.fresh responder right).finalized initiator selection t).advanced := ⟨_, rfl⟩
  obtain ⟨answer, hanswer, hanswered⟩ := h.answer (r := r₁) (by rw [hr₁]; rfl) (by rw [hr₁]; rfl)
    (by rw [hr₁]; rfl) ht
  obtain ⟨i₂, hi₂⟩ : ∃ i, i =
      ((Handshake.fresh initiator left).advanced.finalized responder selection t).advanced :=
        ⟨_, rfl⟩
  rw [← hi₂] at hanswered
  -- the responder's proof, the initiator's proof and the confirmation, in this order
  obtain ⟨proof, hproof, hproved⟩ := proof_accepted p r₁.advanced i₂ .responderProof responder.view
    t (sign .responder (responderSessionMessage p.sha256 t)) rfl
    (by rw [hr₁]; exact h.inputs.2) (by rw [hi₂]; exact h.inputs.1) (by rw [hr₁]; rfl)
    (by rw [hi₂]; rfl) (by rw [hr₁]; exact h.responds)
    (by rw [hi₂]; show Role.responder ≠ initiator.role; rw [h.initiates]; decide)
    (by rw [hr₁]; rfl) (by rw [hi₂]; rfl) (by rw [hi₂]; rfl)
    (by rw [hr₁, hi₂]; exact (h.credentialProof_eq _ _).symm) (h.signs.2 _)
  obtain ⟨proof', hproof', hproved'⟩ := proof_accepted p i₂.advanced r₁.advanced.advanced
    .initiatorProof initiator.view t (sign .initiator (initiatorSessionMessage p.sha256 t)) rfl
    (by rw [hi₂]; exact h.inputs.1) (by rw [hr₁]; exact h.inputs.2) (by rw [hi₂]; rfl)
    (by rw [hr₁]; rfl) (by rw [hi₂]; exact h.initiates)
    (by rw [hr₁]; show Role.initiator ≠ responder.role; rw [h.responds]; decide)
    (by rw [hi₂]; rfl) (by rw [hr₁]; rfl) (by rw [hr₁]; rfl)
    (by rw [hr₁, hi₂]; exact h.credentialProof_eq _ _) (h.signs.1 _)
  obtain ⟨confirmation, hconfirm, hconfirmed⟩ := confirmation_accepted p
    r₁.advanced.advanced.advanced i₂.advanced.advanced
    (select_eq_ok.mp h.selectsLeft).length_bytes_le (by rw [hr₁]; exact h.responds)
    (by rw [hi₂]; exact h.initiates) (by rw [hr₁]; rfl) (by rw [hi₂]; rfl) (by rw [hr₁]; rfl)
    (by rw [hi₂]; rfl)
  refine ⟨i₂.advanced.advanced.advanced, r₁.advanced.advanced.advanced.advanced,
    ?_, by rw [hi₂]; rfl,
    by rw [hr₁]; rfl⟩
  have hreceive' : (Handshake.fresh responder right).receive p hello = .ok r₁ := by
    rw [hr₁]
    exact hreceive
  have hheld : r₁.advanced.transcript = some t := by rw [hr₁]; rfl
  have hheld' : i₂.advanced.transcript = some t := by rw [hi₂]; rfl
  unfold exchange
  rw [hsend, bind_of_ok]
  dsimp only
  rw [hreceive', bind_of_ok, hanswer, bind_of_ok]
  dsimp only
  rw [orError_eq_ok.mpr hheld, bind_of_ok, Handshake.responderProof, hproof, bind_of_ok]
  dsimp only
  rw [hanswered, bind_of_ok, hproved, bind_of_ok, orError_eq_ok.mpr hheld', bind_of_ok,
    Handshake.initiatorProof, hproof', bind_of_ok]
  dsimp only
  rw [hproved', bind_of_ok, hconfirm, bind_of_ok]
  dsimp only
  rw [hconfirmed, bind_of_ok]
  rfl

/-- **Honest handshakes complete exactly when their transcript fits a control body.** -/
theorem honest_handshake_completes_iff
    (h : HonestPair p sign initiator responder left right selection) :
    (∃ i₀ r₀ i r, Handshake.new initiator left = .ok i₀ ∧ Handshake.new responder right = .ok r₀ ∧
        exchange p sign i₀ r₀ = .ok (i, r) ∧ i.isAuthenticated = true ∧ r.isAuthenticated = true) ↔
      (pairTranscript initiator responder selection).length ≤ 65536 := by
  have hi := Handshake.new_eq_fresh left h.inputs.1
  have hr := Handshake.new_eq_fresh right h.inputs.2
  constructor
  · rintro ⟨i₀, r₀, i, r, hi₀, hr₀, hexchange, -, -⟩
    obtain rfl := Except.ok.inj (hi.symm.trans hi₀)
    obtain rfl := Except.ok.inj (hr.symm.trans hr₀)
    by_contra hlong
    rw [h.refused (Nat.not_le.mp hlong)] at hexchange
    cases hexchange
  · intro hfits
    obtain ⟨i, r, hexchange, hauthenticated⟩ := h.completes hfits
    exact ⟨_, _, i, r, hi, hr, hexchange, hauthenticated⟩

end Exchange

/-! ## A pair that completes -/

def lenientPrimitives : Primitives := { samplePrimitives with verify := fun _ _ _ => true }

def offeringConfig (offer : FeatureOffer) (role : Role) : HandshakeConfig :=
  { sampleConfig role with localOffer := offer }

lemma offering_pair {offer : FeatureOffer}
    (hselect : select lenientPrimitives.sha256 registry offer offer offer.required offer.required =
      .ok selection) : HonestPair lenientPrimitives sampleSign (offeringConfig offer .initiator)
      (offeringConfig offer .responder) registry registry selection where
  initiates := rfl
  responds := rfl
  mode := rfl
  generation := rfl
  credential := rfl
  channelBinding := rfl
  inputs := ⟨⟨rfl, rfl⟩, ⟨rfl, rfl⟩⟩
  accepts := by
    refine ⟨⟨?_, fun e he => by cases he⟩, ⟨?_, fun e he => by cases he⟩⟩
    · show ¬(sampleId .responder = sampleId .initiator ∨ sampleKey .responder =
        sampleKey .initiator)
      decide +kernel
    · show ¬(sampleId .initiator = sampleId .responder ∨ sampleKey .initiator =
        sampleKey .responder)
      decide +kernel
  selectsLeft := hselect
  selectsRight := hselect
  signs := ⟨fun _ => rfl, fun _ => rfl⟩

def emptySelection : Selection := ⟨[], [129, 128]⟩

/-- Two endpoints with nothing to offer authenticate. -/
theorem empty_pair_completes :
    ∃ i₀ r₀ i r, Handshake.new (offeringConfig emptyOffer .initiator) emptyRegistry = .ok i₀ ∧
      Handshake.new (offeringConfig emptyOffer .responder) emptyRegistry = .ok r₀ ∧
      exchange lenientPrimitives sampleSign i₀ r₀ = .ok (i, r) ∧
      i.isAuthenticated = true ∧ r.isAuthenticated = true := by
  have hselect : select lenientPrimitives.sha256 emptyRegistry emptyOffer emptyOffer
      emptyOffer.required emptyOffer.required = .ok emptySelection := by
    refine select_eq_ok.mpr ⟨fun _ h => absurd h List.not_mem_nil, List.Pairwise.nil,
      ⟨⟨fun _ h => absurd h List.not_mem_nil, fun _ h => absurd h List.not_mem_nil⟩,
        fun S hS tag htag => ?_⟩, fun _ h => absurd h List.not_mem_nil, fun tag htag => htag, ?_⟩
    · obtain ⟨definition, hget, -⟩ := hS.2 tag htag
      cases hget
    · decide +kernel
  exact (honest_handshake_completes_iff (offering_pair hselect)).mpr (by decide +kernel)

/-! ## A pair that does not -/

def bulkEnd (i : Fin 96) : Text := [Char.ofNat (97 + i / 16), Char.ofNat (97 + i % 16)]

def bulkFront : Text := List.replicate 55 'a' ++ "/features/".toList ++ List.replicate 61 'n'

variable (i : Fin 96)

lemma utf8Len_bulk : utf8Len (bulkFront ++ bulkEnd i) = 128 := by
  have hfront : utf8Len bulkFront = 126 := by decide +kernel
  have hend : ∀ i, utf8Len (bulkEnd i) = 2 := by decide +kernel
  rw [utf8Len_append, hfront, hend]

lemma validNameComponent_bulk :
    validNameComponent (List.replicate 61 'n' ++ bulkEnd i) = true := by
  have hfront : utf8Len (List.replicate 61 'n') = 61 := by decide +kernel
  have hend : ∀ i, utf8Len (bulkEnd i) = 2 ∧ (bulkEnd i).getLast?.any Char.isAlphanum = true ∧
      ((bulkEnd i).all fun c => c.isLower || c.isDigit || c == '-') = true := by decide +kernel
  obtain ⟨hlength, hlast, hall⟩ := hend i
  have hlength : utf8Len (List.replicate 61 'n' ++ bulkEnd i) ≤ maxComponentLen := by
    rw [utf8Len_append, hfront, hlength]
    decide
  have hlast : (List.replicate 61 'n' ++ bulkEnd i).getLast?.any Char.isAlphanum = true := by
    have hne : bulkEnd i ≠ [] := List.cons_ne_nil _ _
    rw [List.getLast?_append_of_ne_nil _ hne]
    exact hlast
  have hall : ((List.replicate 61 'n' ++ bulkEnd i).all
      fun c => c.isLower || c.isDigit || c == '-') = true := by
    rw [List.all_append, hall]
    decide +kernel
  simp only [validNameComponent, decide_eq_true hlength, hlast, hall, Bool.and_true]
  rfl

lemma validateTag_bulk :
    validateTag (bulkFront ++ bulkEnd i) = .ok (bulkFront ++ bulkEnd i, 55, 64, none) := by
  have hascii : ((bulkFront ++ bulkEnd i).all fun c => c.toNat < 128) = true := by
    have hend : ∀ i, ((bulkEnd i).all fun c => c.toNat < 128) = true := by decide +kernel
    rw [List.all_append, hend i]
    decide +kernel
  have hslash : '/' ∉ List.replicate 61 'n' ++ bulkEnd i := by
    have hend : ∀ i, '/' ∉ bulkEnd i := by decide +kernel
    exact List.not_mem_append (by decide +kernel) (hend i)
  have hjoin : bulkFront ++ bulkEnd i = ['/'].intercalate
      [List.replicate 55 'a', categoryFeatures, List.replicate 61 'n' ++ bulkEnd i] := by
    have hfront : bulkFront =
        List.replicate 55 'a' ++ '/' :: categoryFeatures ++ '/' :: List.replicate 61 'n' := by
      decide +kernel
    rw [hfront]
    simp [List.intercalate]
  have hsplit : (bulkFront ++ bulkEnd i).splitOn '/' =
      [List.replicate 55 'a', categoryFeatures, List.replicate 61 'n' ++ bulkEnd i] := by
    rw [hjoin]
    refine List.splitOn_intercalate '/' (fun segment hsegment => ?_) (List.cons_ne_nil _ _)
    simp only [List.mem_cons, not_mem_nil, or_false] at hsegment
    rcases hsegment with rfl | rfl | rfl
    · decide +kernel
    · decide +kernel
    · exact hslash
  have hbounds : minTagLen ≤ utf8Len (bulkFront ++ bulkEnd i) ∧
      utf8Len (bulkFront ++ bulkEnd i) ≤ maxTagLen := by
    rw [utf8Len_bulk]
    decide
  exact validateTag_of_split ⟨hbounds.1, hbounds.2, hascii⟩ hsplit (by decide +kernel)
    (by decide +kernel) (validNameComponent_bulk i) (by decide +kernel)

lemma category_bulk : ((bulkFront ++ bulkEnd i).take 64).drop (55 + 1) = categoryFeatures := by
  have hlength : 64 ≤ bulkFront.length := by decide +kernel
  rw [List.take_append_of_le_length hlength]
  decide +kernel

def bulkTag (i : Fin 96) : FeatureTag where
  tag := ⟨bulkFront ++ bulkEnd i, 55, 64, none, validateTag_bulk i⟩
  valid := category_bulk i

lemma append_lt_append_left {a b : Text} (front : Text) (h : a < b) : front ++ a < front ++ b := by
  induction front with
  | nil => exact h
  | cons c front ih => exact List.cons_lt_cons_iff.mpr (.inr ⟨rfl, ih⟩)

lemma bulkTag_strictMono : StrictMono bulkTag := by
  have hend : ∀ i : Fin 95, bulkEnd i.castSucc < bulkEnd i.succ := by decide +kernel
  exact Fin.strictMono_iff_lt_succ.mpr fun i => append_lt_append_left bulkFront (hend i)

lemma pairwise_bulk {α : Type} {r : α → α → Prop} {f : Fin 96 → α}
    (h : ∀ i j, i < j → r (f i) (f j)) : ((finRange 96).map f).Pairwise r :=
  List.pairwise_map.mpr ((List.pairwise_lt_finRange 96).imp fun hij => h _ _ hij)

def bulkDefinition (i : Fin 96) : FeatureDefinition :=
  FeatureDefinition.new (bulkTag i) (Vector.replicate 32 0)

def bulkRegistry : FeatureRegistry where
  definitions := ⟨(List.finRange 96).map fun i => (bulkTag i, bulkDefinition i),
    pairwise_bulk fun _ _ hij => bulkTag_strictMono hij⟩
  keyed entry h := by
    obtain ⟨i, -, rfl⟩ := List.mem_map.mp h
    rfl

def bulkDigest (i : Fin 96) : Digest :=
  bodyDigest lenientPrimitives.sha256 (definitionCodec.toItem (bulkDefinition i).wire).encode

def bulkOffer : FeatureOffer where
  supported := (List.finRange 96).map fun i => (bulkTag i, bulkDigest i)
  required := (List.finRange 96).map bulkTag
  supported_ascending := pairwise_bulk fun _ _ hij => bulkTag_strictMono hij
  required_ascending := pairwise_bulk fun _ _ hij => bulkTag_strictMono hij
  supported_bounded := by rw [List.length_map, List.length_finRange]; decide
  required_bounded := by rw [List.length_map, List.length_finRange]; decide
  required_supported tag h := by
    obtain ⟨i, hi, rfl⟩ := List.mem_map.mp h
    exact ⟨_, List.mem_map_of_mem hi, rfl⟩

def bulkSelection : Selection where
  features := (List.finRange 96).map bulkTag
  bytes := (selectionCodec.toItem
    (((List.finRange 96).map bulkTag).map fun tag => tag.tag.value)).encode

lemma length_bulk_label : (Codec.chars.toItem (bulkTag i).tag.value).encode.length = 130 := by
  have hlength : utf8Len (bulkTag i).tag.value = 128 := utf8Len_bulk i
  rw [length_chars, hlength]
  rfl

lemma length_vec_bulk {α : Type} (codec : Codec α) (f : Fin 96 → α) {n : ℕ}
    (h : ∀ i, (codec.toItem (f i)).encode.length = n) :
    (codec.vec.toItem ((finRange 96).map f)).encode.length = 2 + 96 * n := by
  rw [show codec.vec.toItem ((finRange 96).map f) =
    .array (((finRange 96).map f).map codec.toItem) from rfl, Item.length_encode_array,
    length_map, length_map, List.length_finRange, map_map, map_map]
  have hconst : ((fun i : Item => i.encode.length) ∘ codec.toItem) ∘ f = fun _ => n := funext h
  rw [hconst, List.map_const', List.length_finRange, List.sum_replicate, smul_eq_mul]
  rfl

lemma length_bulk_offer : (offerCodec.toItem bulkOffer.wire).encode.length = 28325 := by
  have hsupported := length_vec_bulk (.array (.cons .chars (.last .byteVec)))
    (fun i => ((bulkTag i).tag.value, (bulkDigest i).toList)) (n := 165) fun i => by
      have hlabel := length_bulk_label i
      have hdigest : (Codec.byteVec.toItem (bulkDigest i).toList).encode.length = 34 := by
        rw [length_byteVec, Vector.length_toList]
        rfl
      rw [show (Codec.array (.cons .chars (.last .byteVec))).toItem
        ((bulkTag i).tag.value, (bulkDigest i).toList) =
          .array [Codec.chars.toItem (bulkTag i).tag.value,
          Codec.byteVec.toItem (bulkDigest i).toList] from rfl, Item.length_encode_array]
      simp only [map_cons, map_nil, sum_cons, sum_nil, hlabel, hdigest]
      rfl
  have hrequired := length_vec_bulk .chars (fun i => (bulkTag i).tag.value) length_bulk_label
  have hwire : bulkOffer.wire = ((finRange 96).map fun i => ((bulkTag i).tag.value,
      (bulkDigest i).toList), (finRange 96).map fun i => (bulkTag i).tag.value) := by
    simp only [FeatureOffer.wire, bulkOffer, map_map]
    rfl
  rw [hwire, show ∀ wire : OfferWire, offerCodec.toItem wire =
    .array [(Codec.array (.cons .chars (.last .byteVec))).vec.toItem wire.1,
      Codec.chars.vec.toItem wire.2] from fun _ => rfl, Item.length_encode_array]
  simp only [map_cons, map_nil, sum_cons, sum_nil, hsupported, hrequired]
  rfl

lemma length_bulk_selection : bulkSelection.bytes.length = 12483 := by
  have hvec := length_vec_bulk .chars (fun i => (bulkTag i).tag.value) length_bulk_label
  unfold bulkSelection
  dsimp only
  rw [map_map, show ∀ texts : List Text, selectionCodec.toItem texts =
    .array [Codec.chars.vec.toItem texts] from fun _ => rfl, Item.length_encode_array,
    List.map_singleton, List.sum_singleton,
    show ((fun tag : FeatureTag => tag.tag.value) ∘ bulkTag) = fun i =>
      (bulkTag i).tag.value from rfl,
    hvec]
  rfl

lemma bulkDefinition_encodes : (bulkDefinition i).encode =
    .ok (definitionCodec.toItem (bulkDefinition i).wire).encode := by
  have hlabel := length_bulk_label i
  have hitem : definitionCodec.toItem (bulkDefinition i).wire =
      .array [Codec.chars.toItem (bulkTag i).tag.value,
        Codec.byteVec.toItem (Vector.replicate 32 (0 : UInt8)).toList,
        .array [], .array [], .array []] := rfl
  have hempty : (Item.array []).Within 15 1024 := .array (by decide) (by simp)
  refine encode_control ?_ ?_
  · rw [hitem]
    refine .array (show 5 ≤ 1024 by decide) ?_
    simp only [forall_mem_cons, not_mem_nil, false_imp_iff, implies_true, and_true]
    exact ⟨within_chars _, within_byteVec _, hempty, hempty, hempty⟩
  · have hdigest : (Codec.byteVec.toItem (Vector.replicate 32 (0 : UInt8)).toList).encode.length =
        34 := by
      rw [length_byteVec, Vector.length_toList]
      rfl
    rw [hitem, Item.length_encode_array]
    simp only [map_cons, map_nil, sum_cons, sum_nil, hlabel, hdigest]
    exact (show headerLen 5 + (130 + (34 + (1 + (1 + (1 + 0))))) ≤ 65536 by decide)

lemma bulkSelection_encodes : encodeCanonical selectionCodec
    (bulkSelection.features.map fun tag => tag.tag.value) controlCborLimits =
      .ok bulkSelection.bytes := by
  refine encode_control ?_ ?_
  · refine .array (show 1 ≤ 1024 by decide) ?_
    simp only [last, forall_mem_cons, not_mem_nil, false_imp_iff, implies_true,
      and_true]
    refine .vec ?_ fun t _ => within_chars t
    rw [length_map, bulkSelection, length_map, List.length_finRange]
    decide
  · exact (show bulkSelection.bytes.length ≤ 65536 by rw [length_bulk_selection]; decide)

lemma bulk_selects : select lenientPrimitives.sha256 bulkRegistry bulkOffer bulkOffer
    bulkOffer.required bulkOffer.required = .ok bulkSelection := by
  have hget (i : Fin 96) : bulkRegistry.get (bulkTag i) = some (bulkDefinition i) :=
    OrdMap.get?_eq_some.mpr
      (show (bulkTag i, bulkDefinition i) ∈ bulkRegistry.definitions.entries from
      List.mem_map.mpr ⟨i, List.mem_finRange i, rfl⟩)
  have hlabel {tag : FeatureTag} (h : tag ∈ bulkSelection.features) : ∃ i, tag = bulkTag i := by
    obtain ⟨i, -, rfl⟩ := List.mem_map.mp h
    exact ⟨i, rfl⟩
  refine select_eq_ok.mpr ⟨?_, pairwise_bulk fun _ _ hij => bulkTag_strictMono hij, ⟨⟨?_, ?_⟩, ?_⟩,
    ?_, ?_, ?_⟩
  · rintro entry hentry digest hdigest
    obtain ⟨i, -, rfl⟩ := List.mem_map.mp hentry
    obtain ⟨j, -, hj⟩ := List.mem_map.mp (FeatureOffer.supportedDigest_eq_some.mp hdigest)
    obtain ⟨htag, rfl⟩ := Prod.mk.inj hj
    obtain rfl := bulkTag_strictMono.injective htag
    refine ⟨rfl, fun definition hdefinition => ?_⟩
    obtain rfl := Option.some_inj.mp ((hget j).symm.trans hdefinition)
    rw [FeatureDefinition.definitionDigest, bulkDefinition_encodes]
    rfl
  · intro tag htag
    obtain ⟨i, rfl⟩ := hlabel htag
    have hsome : bulkOffer.supportedDigest (bulkTag i) = some (bulkDigest i) :=
      FeatureOffer.supportedDigest_eq_some.mpr (List.mem_map_of_mem (List.mem_finRange i))
    exact ⟨by rw [hsome]; rfl, by rw [hsome]; rfl⟩
  · intro tag htag
    obtain ⟨i, rfl⟩ := hlabel htag
    exact ⟨_, hget i, fun _ h => absurd h not_mem_nil⟩
  · intro S hS tag htag
    obtain ⟨digest, hdigest⟩ := Option.isSome_iff_exists.mp (hS.1 htag).1
    obtain ⟨i, hi, hentry⟩ := List.mem_map.mp (FeatureOffer.supportedDigest_eq_some.mp hdigest)
    exact List.mem_map.mpr ⟨i, hi, congrArg Prod.fst hentry⟩
  · intro tag htag
    obtain ⟨i, rfl⟩ := hlabel htag
    exact ⟨_, hget i, fun _ h => absurd h not_mem_nil⟩
  · intro tag htag
    rcases List.mem_append.mp htag with h | h <;> exact h
  · exact bulkSelection_encodes

lemma le_length_transcript (a b : HelloView) (selection : List UInt8) (binding : FixedBytes 32) :
    a.offerBytes.length + b.offerBytes.length + selection.length ≤
      (transcriptCodec.toItem
        (transcriptWire mode generation a b selection binding)).encode.length := by
  have hoffers : a.offerBytes.length + b.offerBytes.length ≤
      (Codec.byteVec.vec.toItem [a.offerBytes, b.offerBytes]).encode.length := by
    rw [show Codec.byteVec.vec.toItem [a.offerBytes, b.offerBytes] =
      .array [Codec.byteVec.toItem a.offerBytes, Codec.byteVec.toItem b.offerBytes] from rfl,
      Item.length_encode_array]
    simp only [map_cons, map_nil, sum_cons, sum_nil, length_byteVec]
    omega
  have hselection : selection.length ≤ (Codec.byteVec.toItem selection).encode.length := by
    rw [length_byteVec]
    exact Nat.le_add_left _ _
  rw [show transcriptCodec.toItem (transcriptWire mode generation a b selection binding) =
    .array ((Fields.cons .chars (.cons .u64 (.cons .chars (.cons optionalBytesCodec
      (.cons Codec.chars.vec (.cons (Codec.array (.cons .chars (.last .byteVec))).vec
        (.cons Codec.byteVec.vec
          (.cons Codec.byteVec.vec (.cons .byteVec (.last .byteVec)))))))))).toItems
          (transcriptWire mode generation a b selection binding)) from rfl,
            Item.length_encode_array]
  simp only [Fields.cons, last, transcriptWire, map_cons, map_nil, sum_cons,
    sum_nil]
  omega

/-- Two honest endpoints with 96 required labels of 128 bytes: the responder refuses the
transcript. -/
theorem bulk_pair_refused :
    HonestPair lenientPrimitives sampleSign (offeringConfig bulkOffer .initiator)
        (offeringConfig bulkOffer .responder) bulkRegistry bulkRegistry bulkSelection ∧
      exchange lenientPrimitives sampleSign
        (Handshake.fresh (offeringConfig bulkOffer .initiator) bulkRegistry)
        (Handshake.fresh (offeringConfig bulkOffer .responder) bulkRegistry) =
          .error (.malformed "handshake transcript") := by
  have hpair := offering_pair bulk_selects
  refine ⟨hpair, hpair.refused ?_⟩
  have hle := le_length_transcript (offeringConfig bulkOffer .initiator).mode
    (offeringConfig bulkOffer .initiator).generation (offeringConfig bulkOffer .initiator).view
    (offeringConfig bulkOffer .responder).view bulkSelection.bytes
    (offeringConfig bulkOffer .initiator).channelBinding
  have hoffer (role : Role) : (offeringConfig bulkOffer role).view.offerBytes.length = 28325 :=
    length_bulk_offer
  rw [hoffer, hoffer, length_bulk_selection] at hle
  exact lt_of_lt_of_le (by decide) hle

end Radiata.Protocol
