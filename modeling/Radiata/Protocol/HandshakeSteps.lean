import Radiata.Protocol.Handshake

/-!
# What a handshake step can do

An accepted message is a hello, a proof, the confirmation or the grant.  `Accepts` lists the
four cases with everything their checks established, and `receive_accepts` reads them off the
endpoint's code once.  The sending steps only move the position.
-/

namespace Radiata.Protocol

open Lib Lib.Cbor Lib.Checked
open Identity (FixedBytes PublicKey Signature)

/-! ## Decoding -/

lemma encodeCanonical_injective {α : Type} {codec : Codec α} {limits : CborLimits} {a b : α}
    {bytes : List UInt8} (ha : encodeCanonical codec a limits = .ok bytes)
    (hb : encodeCanonical codec b limits = .ok bytes) : a = b := by
  have hread := decodeCanonicalStrict_of_encode "" ha
  rw [decodeCanonicalStrict_of_encode "" hb] at hread
  exact (Except.ok.inj hread).symm

namespace Handshake

variable {p : Primitives} {h h' : Handshake} {bytes : List UInt8}

/-! ## The cases of an accepted message -/

def helloKind : Role → HandshakeKind
  | .initiator => .initiatorHello
  | .responder => .responderHello

def proofKind : Role → HandshakeKind
  | .initiator => .initiatorProof
  | .responder => .responderProof

inductive Accepts (p : Primitives) (h : Handshake) (bytes : List UInt8) :
    HandshakeKind → Handshake → Prop
  | hello (peer : HelloView) (selection : Selection) (transcript : List UInt8)
      (turn : (helloKind h.config.role.other).position = h.completed + 1)
      (distinct : peer.nodeId ≠ h.config.localId ∧ peer.publicKey ≠ h.config.localKey)
      (expected : ∀ e ∈ h.config.expectedPeer, e = (peer.nodeId, peer.publicKey))
      (offers : FeatureOffer.decode peer.offerBytes = .ok peer.offer)
      (selects : select p.sha256 h.registry h.localView.offer peer.offer
        h.localView.offer.required peer.offer.required = .ok selection)
      (assembles : assembleTranscript h.config.mode h.config.generation (h.inRoleOrder peer).1
        (h.inRoleOrder peer).2 selection.bytes h.config.channelBinding = .ok transcript) :
      Accepts p h bytes (helloKind h.config.role.other)
        { h with
          peerHello := some peer
          selection := some selection
          transcript := some transcript
          completed := h.completed + 1 }
  | proof (wire : ProofWire) (proof : Option (FixedBytes 32)) (signature : Signature)
      (peer : HelloView) (transcript : List UInt8)
      (turn : (proofKind h.config.role.other).position = h.completed + 1)
      (decodes : decodeWire proofCodec bytes = .ok wire)
      (offered : optionalField 32 wire.2.1 "handshake proof" = .ok proof)
      (carries : wire.2.2 = signature.1)
      (proves : h.checkProof p h.config.role.other proof = .ok ())
      (known : h.peerHello = some peer) (held : h.transcript = some transcript)
      (verifies : p.verify peer.publicKey
        (signatureMessage p.sha256 (sessionDomain h.config.role.other) transcript) signature =
          true) :
      Accepts p h bytes (proofKind h.config.role.other) { h with completed := h.completed + 1 }
  | confirmation (wire : PayloadWire) (selection : Selection)
      (initiator : h.config.role = .initiator) (turn : h.completed = 4)
      (decodes : decodeWire payloadCodec bytes = .ok wire)
      (held : h.selection = some selection) (confirms : wire.2 = selection.bytes) :
      Accepts p h bytes .selectionConfirmation { h with completed := h.completed + 1 }
  | grant (wire : PayloadWire) (initiator : h.config.role = .initiator)
      (merge : h.config.mode = .merge) (authenticated : h.isAuthenticated = true)
      (first : h.grant = none) (decodes : decodeWire payloadCodec bytes = .ok wire)
      (nonempty : wire.2 ≠ []) :
      Accepts p h bytes .mergeGrantDelivery { h with grant := some wire.2 }

lemma finalizeHellos_eq_ok {peer : HelloView} (hok : h.finalizeHellos p peer = .ok h') :
    ∃ selection transcript,
      select p.sha256 h.registry h.localView.offer peer.offer h.localView.offer.required
        peer.offer.required = .ok selection ∧
      assembleTranscript h.config.mode h.config.generation (h.inRoleOrder peer).1
        (h.inRoleOrder peer).2 selection.bytes h.config.channelBinding = .ok transcript ∧
      h' = { h with
        peerHello := some peer, selection := some selection, transcript := some transcript } := by
  unfold finalizeHellos at hok
  obtain ⟨selection, hselect, hok⟩ := bind_ok_iff.mp hok
  obtain ⟨transcript, hassemble, hok⟩ := bind_ok_iff.mp hok
  refine ⟨selection, transcript, ?_, hassemble, (Except.ok.inj hok).symm⟩
  cases hs : select p.sha256 h.registry h.localView.offer peer.offer h.localView.offer.required
      peer.offer.required with
  | error e => rw [hs] at hselect; cases hselect
  | ok chosen => rw [hs] at hselect; cases hselect; rfl

lemma acceptPeerHello_eq_ok {nodeId : Text} {publicKey nonce offerBytes : List UInt8}
    (hok : h.acceptPeerHello p nodeId publicKey nonce offerBytes = .ok h') :
    ∃ peer : HelloView,
      (peer.nodeId ≠ h.config.localId ∧ peer.publicKey ≠ h.config.localKey) ∧
      (∀ e ∈ h.config.expectedPeer, e = (peer.nodeId, peer.publicKey)) ∧
      FeatureOffer.decode peer.offerBytes = .ok peer.offer ∧
      h.finalizeHellos p peer = .ok h' := by
  unfold acceptPeerHello at hok
  obtain ⟨node, -, hok⟩ := bind_ok_iff.mp hok
  obtain ⟨key, -, hok⟩ := bind_ok_iff.mp hok
  obtain ⟨fresh, -, hok⟩ := bind_ok_iff.mp hok
  obtain ⟨hdistinct, hok⟩ := ensure_bind_eq_ok.mp hok
  obtain ⟨hexpected, hok⟩ := ensure_bind_eq_ok.mp hok
  obtain ⟨offer, hoffer, hok⟩ := bind_ok_iff.mp hok
  exact ⟨⟨node, key, fresh, offerBytes, offer⟩, not_or.mp hdistinct, hexpected,
    replaceError_eq_ok.mp hoffer, hok⟩

variable {kind : HandshakeKind}

lemma receiveHello_eq_ok (hkind : kind = helloKind h.config.role.other)
    (hok : h.receiveAt p kind bytes = .ok h') : ∃ nodeId publicKey nonce offerBytes,
      h.acceptPeerHello p nodeId publicKey nonce offerBytes = .ok h' := by
  cases hrole : h.config.role with
  | initiator =>
    rw [hrole] at hkind
    subst hkind
    obtain ⟨⟨_, nodeId, publicKey, nonce, offer⟩, -, hok⟩ := bind_ok_iff.mp hok
    exact ⟨nodeId, publicKey, nonce, offer, hok⟩
  | responder =>
    rw [hrole] at hkind
    subst hkind
    obtain ⟨⟨_, modeText, generation, nodeId, publicKey, nonce, offer⟩, -, hok⟩ :=
      bind_ok_iff.mp hok
    obtain ⟨mode, -, hok⟩ := bind_ok_iff.mp hok
    obtain ⟨-, hok⟩ := ensure_bind_eq_ok.mp hok
    obtain ⟨actual, -, hok⟩ := bind_ok_iff.mp hok
    obtain ⟨-, -, hok⟩ := bind_ok_iff.mp hok
    exact ⟨nodeId, publicKey, nonce, offer, hok⟩

lemma fixedField_eq_ok {n : ℕ} {value : List UInt8} {context : String} {field : FixedBytes n}
    (hok : fixedField n value context = .ok field) : value = field.1 := by
  have hfixed := replaceError_eq_ok.mp hok
  unfold Identity.fixedBytes at hfixed
  split_ifs at hfixed
  exact congrArg Subtype.val (Except.ok.inj hfixed)

lemma receiveProof_eq_ok {role : Role} (hok : h.receiveProof p role bytes = .ok h') :
    ∃ (wire : ProofWire) (proof : Option (FixedBytes 32)) (signature : Signature)
      (peer : HelloView) (transcript : List UInt8),
      decodeWire proofCodec bytes = .ok wire ∧
      optionalField 32 wire.2.1 "handshake proof" = .ok proof ∧ wire.2.2 = signature.1 ∧
      h.checkProof p role proof = .ok () ∧ h.peerHello = some peer ∧
      h.transcript = some transcript ∧
      p.verify peer.publicKey (signatureMessage p.sha256 (sessionDomain role) transcript)
        signature = true ∧ h' = h := by
  unfold receiveProof at hok
  obtain ⟨wire, hwire, hok⟩ := bind_ok_iff.mp hok
  obtain ⟨proof, hoffered, hok⟩ := bind_ok_iff.mp hok
  obtain ⟨⟨⟩, hproof, hok⟩ := bind_ok_iff.mp hok
  obtain ⟨signature, hsignature, hok⟩ := bind_ok_iff.mp hok
  obtain ⟨peer, hpeer, hok⟩ := bind_ok_iff.mp hok
  obtain ⟨transcript, htranscript, hok⟩ := bind_ok_iff.mp hok
  obtain ⟨hverify, hok⟩ := ensure_bind_eq_ok.mp hok
  exact ⟨wire, proof, signature, peer, transcript, hwire, hoffered, fixedField_eq_ok hsignature,
    hproof, orError_eq_ok.mp hpeer, orError_eq_ok.mp htranscript, hverify, (Except.ok.inj hok).symm⟩

lemma receiveNext_accepts (hsender : kind.sender ≠ h.config.role)
    (hok : h.receiveNext p kind bytes = .ok h') : Accepts p h bytes kind h' := by
  unfold receiveNext at hok
  obtain ⟨-, hok⟩ := ensure_bind_eq_ok.mp hok
  obtain ⟨hlow, hok⟩ := ensure_bind_eq_ok.mp hok
  obtain ⟨hhigh, hok⟩ := ensure_bind_eq_ok.mp hok
  obtain ⟨next, hnext, hok⟩ := bind_ok_iff.mp hok
  obtain rfl := Except.ok.inj hok
  have hturn : kind.position = h.completed + 1 := by omega
  -- the sender of the kind fixes the role of the receiver
  have hello (hkind : kind = helloKind h.config.role.other) :
      Accepts p h bytes kind { next with completed := next.completed + 1 } := by
    obtain ⟨nodeId, publicKey, nonce, offer, haccept⟩ := receiveHello_eq_ok hkind hnext
    obtain ⟨peer, hdistinct, hexpected, hoffers, hfinal⟩ := acceptPeerHello_eq_ok haccept
    obtain ⟨selection, transcript, hselect, hassemble, rfl⟩ := finalizeHellos_eq_ok hfinal
    subst hkind
    exact .hello peer selection transcript hturn hdistinct hexpected hoffers hselect hassemble
  have proof (hkind : kind = proofKind h.config.role.other)
      (hreceive : h.receiveProof p h.config.role.other bytes = .ok next) :
      Accepts p h bytes kind { next with completed := next.completed + 1 } := by
    obtain ⟨wire, proof, signature, peer, transcript, hwire, hoffered, hcarries, hproof, hpeer,
      hheld, hverify, rfl⟩ := receiveProof_eq_ok hreceive
    subst hkind
    exact .proof wire proof signature peer transcript hturn hwire hoffered hcarries hproof hpeer
      hheld
      hverify
  cases hrole : h.config.role <;> rw [hrole] at hello proof hsender <;> cases kind
  all_goals first
    | exact absurd rfl hsender
    | exact hello rfl
    | exact proof rfl hnext
    | cases hnext
    | skip
  obtain ⟨wire, hwire, hnext⟩ := bind_ok_iff.mp hnext
  obtain ⟨selection, hselection, hnext⟩ := bind_ok_iff.mp hnext
  obtain ⟨hconfirms, hnext⟩ := ensure_bind_eq_ok.mp hnext
  obtain rfl := Except.ok.inj hnext
  have hfour : h.completed = 4 := by
    have : (5 : ℕ) = h.completed + 1 := hturn
    omega
  exact .confirmation wire selection hrole hfour hwire (orError_eq_ok.mp hselection) hconfirms

lemma receiveGrantDelivery_accepts (hrole : h.config.role = .initiator)
    (hok : h.receiveGrantDelivery bytes = .ok h') : Accepts p h bytes .mergeGrantDelivery h' := by
  unfold receiveGrantDelivery at hok
  obtain ⟨hmode, hok⟩ := ensure_bind_eq_ok.mp hok
  obtain ⟨hauthenticated, hok⟩ := ensure_bind_eq_ok.mp hok
  obtain ⟨hfirst, hok⟩ := ensure_bind_eq_ok.mp hok
  obtain ⟨wire, hwire, hok⟩ := bind_ok_iff.mp hok
  obtain ⟨hnonempty, hok⟩ := ensure_bind_eq_ok.mp hok
  obtain rfl := Except.ok.inj hok
  exact .grant wire hrole hmode hauthenticated hfirst hwire hnonempty

/-- **What an accepted message established.** -/
theorem receive_accepts (hok : h.receive p bytes = .ok h') :
    ∃ arity kind, probe bytes = .ok (arity, kind) ∧ Accepts p h bytes kind h' := by
  unfold receive at hok
  obtain ⟨-, -, hok⟩ := bind_ok_iff.mp hok
  obtain ⟨⟨arity, kind⟩, hprobe, hok⟩ := bind_ok_iff.mp hok
  obtain ⟨-, hok⟩ := ensure_bind_eq_ok.mp hok
  obtain ⟨hsender, hok⟩ := ensure_bind_eq_ok.mp hok
  refine ⟨arity, kind, hprobe, ?_⟩
  split_ifs at hok with hgrant
  · rw [hgrant] at hsender ⊢
    -- only the responder sends the grant
    have hrole : h.config.role = .initiator := by
      cases hr : h.config.role with
      | initiator => rfl
      | responder => exact absurd hr.symm hsender
    exact receiveGrantDelivery_accepts hrole hok
  · exact receiveNext_accepts hsender hok

/-! ## The sending steps -/

lemma beginSend_eq_ok (hok : h.beginSend kind = .ok ()) :
    h.config.role = kind.sender ∧ h.completed + 1 = kind.position := by
  unfold beginSend at hok
  obtain ⟨hrole, hok⟩ := ensure_bind_eq_ok.mp hok
  exact ⟨hrole, ensure_eq_ok.mp hok⟩

lemma finishSend_eq_ok {α : Type} {codec : Codec α} {wire : α} {sent : List UInt8}
    (hok : h.finishSend codec wire = .ok (sent, h')) :
    encodeCanonical codec wire controlCborLimits = .ok sent ∧
      h' = { h with completed := h.completed + 1 } := by
  unfold finishSend at hok
  obtain ⟨encoded, hencoded, hok⟩ := bind_ok_iff.mp hok
  cases hok
  exact ⟨replaceError_eq_ok.mp hencoded, rfl⟩

end Handshake

end Radiata.Protocol
