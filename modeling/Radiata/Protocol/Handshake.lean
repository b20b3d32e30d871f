import Radiata.Protocol.Selection

/-!
# The authentication handshake

Two endpoints of complementary roles exchange five messages in lockstep: two hellos, two
proofs and the confirmation of the selected features.  A sixth message delivers the grant
of a merge after authentication.  Both endpoints assemble one transcript from the hellos;
each signs it under the domain of its own role, and in merge mode proves knowledge of the
credential over its digest.

The cryptographic primitives are parameters.  The driver keeps its endpoint in a local value
and returns at the first error, so a failed step returns no endpoint.
-/

namespace Radiata.Protocol

open Lib Lib.Cbor Lib.Checked Reconcile
open Identity (FixedBytes PublicKey Signature)

/-! ## Kinds, modes and errors -/

inductive HandshakeKind where
  | initiatorHello
  | responderHello
  | responderProof
  | initiatorProof
  | selectionConfirmation
  | mergeGrantDelivery
deriving DecidableEq

namespace HandshakeKind

def all : List HandshakeKind :=
  [initiatorHello, responderHello, responderProof, initiatorProof, selectionConfirmation,
    mergeGrantDelivery]

def kindId : HandshakeKind → UInt64
  | initiatorHello => 1
  | responderHello => 2
  | responderProof => 3
  | initiatorProof => 4
  | selectionConfirmation => 5
  | mergeGrantDelivery => 6

def position : HandshakeKind → ℕ
  | initiatorHello => 1
  | responderHello => 2
  | responderProof => 3
  | initiatorProof => 4
  | selectionConfirmation => 5
  | mergeGrantDelivery => 6

def arity : HandshakeKind → ℕ
  | initiatorHello => 7
  | responderHello => 5
  | responderProof | initiatorProof => 3
  | selectionConfirmation | mergeGrantDelivery => 2

def sender : HandshakeKind → Role
  | initiatorHello | initiatorProof => .initiator
  | _ => .responder

end HandshakeKind

inductive HandshakeError where
  | terminal
  | nonCanonical
  | unknownField
  | malformed (context : String)
  | roleSwapped
  | duplicate
  | outOfOrder
  | identityEqual
  | expectedKeyConflict
  | proofMismatch
  | invalidSignature
  | selectionBytesMismatch
  | selection (inner : SelectionError)
  | state (context : String)
deriving DecidableEq

namespace HandshakeError

end HandshakeError

inductive HandshakeMode where
  | merge
  | member
deriving DecidableEq

namespace HandshakeMode

def text : HandshakeMode → Text
  | merge => "merge".toList
  | member => "member".toList

def parse (value : Text) : Except HandshakeError HandshakeMode :=
  if value = merge.text then .ok .merge
  else if value = member.text then .ok .member
  else .error (.malformed "handshake mode")

@[simp] lemma parse_text (mode : HandshakeMode) : parse mode.text = .ok mode := by
  cases mode <;> rfl

end HandshakeMode

/-! ## Primitives and configuration -/

def protocolMagic : Text := "MRLY".toList
def baseSchemaId : UInt64 := 1
def protocolPositions : ℕ := 5

def sessionResponderDomain : List UInt8 := utf8 "radiata.woooo.tech/crypto/v1/session-responder"
def sessionInitiatorDomain : List UInt8 := utf8 "radiata.woooo.tech/crypto/v1/session-initiator"

def sessionDomain : Role → List UInt8
  | .initiator => sessionInitiatorDomain
  | .responder => sessionResponderDomain

def responderKeyInfo : List UInt8 := utf8 "radiata.woooo.tech/crypto/v1/bootstrap-responder"
def initiatorKeyInfo : List UInt8 := utf8 "radiata.woooo.tech/crypto/v1/bootstrap-initiator"

def proofInfo : Role → List UInt8
  | .initiator => initiatorKeyInfo
  | .responder => responderKeyInfo

/-- The hash, the strict signature verification, and the key derivation and the message
authentication code of the credential proof.  The last two are total: at the 32-byte lengths
used here neither can fail. -/
structure Primitives where
  sha256 : Hash
  verify : PublicKey → List UInt8 → Signature → Bool
  hkdf : FixedBytes 32 → FixedBytes 32 → List UInt8 → FixedBytes 32
  hmac : FixedBytes 32 → Digest → FixedBytes 32

variable (p : Primitives)

def Primitives.roleKey (channelBinding secret : FixedBytes 32) (info : List UInt8)
    : FixedBytes 32 :=
  p.hkdf channelBinding secret info

def Primitives.deriveProof (role : Role) (channelBinding secret : FixedBytes 32) (digest : Digest)
    : FixedBytes 32 :=
  p.hmac (p.roleKey channelBinding secret (proofInfo role)) digest

def Primitives.verifyProof (role : Role) (channelBinding secret : FixedBytes 32) (digest : Digest)
    (expected : FixedBytes 32) : Bool :=
  p.deriveProof role channelBinding secret digest == expected

structure HandshakeConfig where
  mode : HandshakeMode
  role : Role
  localId : NodeId
  localKey : PublicKey
  expectedPeer : Option (NodeId × PublicKey)
  generation : Option (FixedBytes 16)
  credential : Option (FixedBytes 32)
  localNonce : FixedBytes 32
  localOffer : FeatureOffer
  channelBinding : FixedBytes 32

structure HelloView where
  nodeId : NodeId
  publicKey : PublicKey
  nonce : FixedBytes 32
  offerBytes : List UInt8
  offer : FeatureOffer

structure Handshake where
  config : HandshakeConfig
  registry : FeatureRegistry
  completed : ℕ
  localView : HelloView
  peerHello : Option HelloView
  selection : Option Selection
  transcript : Option (List UInt8)
  grantSent : Bool
  grant : Option (List UInt8)

/-! ## Messages -/

def optionalBytesCodec : Codec (Option (List UInt8)) := Codec.byteVec.option fun _ h => by cases h

abbrev InitiatorHelloWire :=
  UInt64 × Text × Option (List UInt8) × Text × List UInt8 × List UInt8 × List UInt8

def initiatorHelloCodec : Codec InitiatorHelloWire :=
  .array (.cons .u64 (.cons .chars (.cons optionalBytesCodec (.cons .chars (.cons .byteVec
    (.cons .byteVec (.last .byteVec)))))))

abbrev ResponderHelloWire := UInt64 × Text × List UInt8 × List UInt8 × List UInt8

def responderHelloCodec : Codec ResponderHelloWire :=
  .array (.cons .u64 (.cons .chars (.cons .byteVec (.cons .byteVec (.last .byteVec)))))

abbrev ProofWire := UInt64 × Option (List UInt8) × List UInt8

def proofCodec : Codec ProofWire := .array (.cons .u64 (.cons optionalBytesCodec (.last .byteVec)))

abbrev PayloadWire := UInt64 × List UInt8

def payloadCodec : Codec PayloadWire := .array (.cons .u64 (.last .byteVec))

abbrev TranscriptWire :=
  Text × UInt64 × Text × Option (List UInt8) × List Text × List (Text × List UInt8) ×
    List (List UInt8) × List (List UInt8) × List UInt8 × List UInt8

def transcriptCodec : Codec TranscriptWire :=
  .array (.cons .chars (.cons .u64 (.cons .chars (.cons optionalBytesCodec (.cons Codec.chars.vec
    (.cons (Codec.array (.cons .chars (.last .byteVec))).vec (.cons Codec.byteVec.vec
      (.cons Codec.byteVec.vec (.cons .byteVec (.last .byteVec))))))))))

def transcriptWire (mode : HandshakeMode) (generation : Option (FixedBytes 16))
    (initiator responder : HelloView) (selection : List UInt8) (channelBinding : FixedBytes 32) :
    TranscriptWire :=
  (protocolMagic, baseSchemaId, mode.text, generation.map Subtype.val,
    [Role.initiator.text, Role.responder.text],
    [(initiator.nodeId.text, initiator.publicKey.1),
    (responder.nodeId.text, responder.publicKey.1)],
    [initiator.nonce.1, responder.nonce.1], [initiator.offerBytes, responder.offerBytes],
    selection, channelBinding.1)

def assembleTranscript (mode : HandshakeMode) (generation : Option (FixedBytes 16))
    (initiator responder : HelloView) (selection : List UInt8) (channelBinding : FixedBytes 32) :
    Except HandshakeError (List UInt8) :=
  replaceError (encodeCanonical transcriptCodec
    (transcriptWire mode generation initiator responder selection channelBinding) controlCborLimits)
    (.malformed "handshake transcript")

def decodeWire {α : Type} (codec : Codec α) (bytes : List UInt8) : Except HandshakeError α := do
  let value ← replaceError (decodeCanonical codec bytes controlCborLimits)
    (.malformed "handshake message decode")
  let encoded ← replaceError (encodeCanonical codec value controlCborLimits)
    (.malformed "handshake message decode")
  ensure (encoded = bytes) .nonCanonical
  pure value

def probe (bytes : List UInt8) : Except HandshakeError (ℕ × HandshakeKind) := do
  let (arity, rest) ← orError (Codec.parseArrayHeader bytes) (.malformed "handshake message")
  let (kind, _) ← orError (Codec.u64.parse rest) (.malformed "handshake message")
  let handshake ← orError (HandshakeKind.all.find? fun handshake => handshake.kindId = kind)
    (.malformed "handshake message kind")
  pure (arity, handshake)

def fixedField (n : ℕ) (bytes : List UInt8) (context : String) :
    Except HandshakeError (FixedBytes n) :=
  replaceError (Identity.fixedBytes n bytes context) (.malformed context)

def optionalField (n : ℕ) (value : Option (List UInt8)) (context : String) :
    Except HandshakeError (Option (FixedBytes n)) :=
  match value with
  | none => .ok none
  | some bytes => (fixedField n bytes context).map some

/-! ## The endpoint -/

namespace Handshake

def new (config : HandshakeConfig) (registry : FeatureRegistry) : Except HandshakeError Handshake :=
  do
  match config.mode with
  | .merge =>
    ensure (config.generation.isSome = true ∧ config.credential.isSome = true)
      (.malformed "handshake join inputs")
  | .member =>
    ensure (config.generation = none ∧ config.credential = none ∧ config.expectedPeer.isSome = true)
      (.malformed "handshake member inputs")
  let offerBytes ← replaceError config.localOffer.encode (.malformed "handshake local offer")
  pure {
    config := config
    registry := registry
    completed := 0
    localView := ⟨config.localId, config.localKey, config.localNonce, offerBytes, config.localOffer⟩
    peerHello := none
    selection := none
    transcript := none
    grantSent := false
    grant := none }

variable (p : Primitives) (h : Handshake)

def isAuthenticated : Bool := h.completed == protocolPositions

def transcriptDigest : Option Digest := h.transcript.map (bodyDigest p.sha256)

def peerIdentity : Option (NodeId × PublicKey) :=
  h.peerHello.map fun hello => (hello.nodeId, hello.publicKey)

def beginSend (kind : HandshakeKind) : Except HandshakeError Unit := do
  ensure (h.config.role = kind.sender) (.state "handshake send role")
  ensure (h.completed + 1 = kind.position) (.state "handshake send order")

def finishSend {α : Type} (codec : Codec α) (wire : α) :
    Except HandshakeError (List UInt8 × Handshake) := do
  let bytes ← replaceError (encodeCanonical codec wire controlCborLimits)
    (.malformed "handshake encode")
  pure (bytes, { h with completed := h.completed + 1 })

def initiatorHelloWire : InitiatorHelloWire :=
  (HandshakeKind.initiatorHello.kindId, h.config.mode.text, h.config.generation.map Subtype.val,
    h.config.localId.text, h.config.localKey.1, h.config.localNonce.1, h.localView.offerBytes)

def initiatorHello : Except HandshakeError (List UInt8 × Handshake) := do
  h.beginSend .initiatorHello
  h.finishSend initiatorHelloCodec h.initiatorHelloWire

def responderHelloWire : ResponderHelloWire :=
  (HandshakeKind.responderHello.kindId, h.config.localId.text, h.config.localKey.1,
    h.config.localNonce.1, h.localView.offerBytes)

def responderHello : Except HandshakeError (List UInt8 × Handshake) := do
  h.beginSend .responderHello
  h.finishSend responderHelloCodec h.responderHelloWire

def deriveLocalProof (role : Role) : Except HandshakeError (Option (FixedBytes 32)) :=
  match h.config.mode with
  | .member => .ok none
  | .merge => do
      let secret ← orError h.config.credential (.state "handshake credential")
      let digest ← orError (h.transcriptDigest p) (.state "handshake transcript")
      pure (some (p.deriveProof role h.config.channelBinding secret digest))

def sendProof (kind : HandshakeKind) (signature : Signature) :
    Except HandshakeError (List UInt8 × Handshake) := do
  h.beginSend kind
  let proof ← h.deriveLocalProof p kind.sender
  h.finishSend proofCodec (kind.kindId, proof.map Subtype.val, signature.1)

def responderProof : Signature → Except HandshakeError (List UInt8 × Handshake) :=
  h.sendProof p .responderProof

def initiatorProof : Signature → Except HandshakeError (List UInt8 × Handshake) :=
  h.sendProof p .initiatorProof

def selectionConfirmation : Except HandshakeError (List UInt8 × Handshake) := do
  h.beginSend .selectionConfirmation
  let selection ← orError h.selection (.state "handshake selection")
  h.finishSend payloadCodec (HandshakeKind.selectionConfirmation.kindId, selection.bytes)

def mergeGrantDelivery (grant : List UInt8) : Except HandshakeError (List UInt8 × Handshake) := do
  ensure (h.config.role = .responder) (.state "handshake send role")
  ensure (h.config.mode = .merge) (.state "handshake grant mode")
  ensure (h.isAuthenticated = true) (.state "handshake grant order")
  ensure (h.grantSent = false) (.state "handshake grant duplicate")
  ensure (grant ≠ []) (.malformed "handshake grant")
  let bytes ← replaceError (encodeCanonical payloadCodec
    (HandshakeKind.mergeGrantDelivery.kindId, grant) controlCborLimits)
    (.malformed "handshake encode")
  pure (bytes, { h with grantSent := true })

def inRoleOrder (peer : HelloView) : HelloView × HelloView :=
  match h.config.role with
  | .initiator => (h.localView, peer)
  | .responder => (peer, h.localView)

def finalizeHellos (peer : HelloView) : Except HandshakeError Handshake := do
  let selection ← (select p.sha256 h.registry h.localView.offer peer.offer
    h.localView.offer.required peer.offer.required).mapError .selection
  let (initiator, responder) := h.inRoleOrder peer
  let transcript ← assembleTranscript h.config.mode h.config.generation initiator responder
    selection.bytes h.config.channelBinding
  pure { h with peerHello := some peer, selection := some selection, transcript := some transcript }

def acceptPeerHello (nodeId : Text) (publicKey nonce offerBytes : List UInt8) :
    Except HandshakeError Handshake := do
  let nodeId ← replaceError (NodeId.parse nodeId) (.malformed "handshake node id")
  let publicKey ← fixedField 32 publicKey "handshake public key"
  let nonce ← fixedField 32 nonce "handshake nonce"
  ensure (¬(nodeId = h.config.localId ∨ publicKey = h.config.localKey)) .identityEqual
  ensure (∀ expected ∈ h.config.expectedPeer, expected = (nodeId, publicKey)) .expectedKeyConflict
  let offer ← replaceError (FeatureOffer.decode offerBytes) (.malformed "handshake offer")
  h.finalizeHellos p ⟨nodeId, publicKey, nonce, offerBytes, offer⟩

def checkGeneration (generation : Option (FixedBytes 16)) : Except HandshakeError Unit :=
  match h.config.mode, generation, h.config.generation with
  | .merge, some actual, some expected =>
    ensure (actual = expected) (.malformed "handshake generation")
  | .member, none, none => .ok ()
  | _, _, _ => .error (.malformed "handshake generation")

variable (bytes : List UInt8)

def receiveInitiatorHello : Except HandshakeError Handshake := do
  let (_, modeText, generationBytes, nodeId, publicKey, nonce, offer) ←
    decodeWire initiatorHelloCodec bytes
  let mode ← HandshakeMode.parse modeText
  ensure (mode = h.config.mode) (.malformed "handshake mode")
  let generation ← optionalField 16 generationBytes "handshake generation"
  h.checkGeneration generation
  h.acceptPeerHello p nodeId publicKey nonce offer

def receiveResponderHello : Except HandshakeError Handshake := do
  let (_, nodeId, publicKey, nonce, offer) ← decodeWire responderHelloCodec bytes
  h.acceptPeerHello p nodeId publicKey nonce offer

def checkProof (role : Role) (proof : Option (FixedBytes 32)) : Except HandshakeError Unit :=
  match h.config.mode, proof with
  | .merge, some actual => do
      let secret ← orError h.config.credential (.state "handshake credential")
      let digest ← orError (h.transcriptDigest p) (.state "handshake transcript")
      ensure (p.verifyProof role h.config.channelBinding secret digest actual = true) .proofMismatch
  | .merge, none => .error (.malformed "handshake proof")
  | .member, none => .ok ()
  | .member, some _ => .error (.malformed "handshake proof field")

def receiveProof (role : Role) (bytes : List UInt8) : Except HandshakeError Handshake := do
  let (_, proofBytes, signatureBytes) ← decodeWire proofCodec bytes
  let proof ← optionalField 32 proofBytes "handshake proof"
  h.checkProof p role proof
  let signature ← fixedField 64 signatureBytes "handshake signature"
  let peer ← orError h.peerHello (.state "handshake peer hello")
  let transcript ← orError h.transcript (.state "handshake transcript")
  ensure (p.verify peer.publicKey (signatureMessage p.sha256 (sessionDomain role) transcript)
    signature = true) .invalidSignature
  pure h

def receiveConfirmation : Except HandshakeError Handshake := do
  let (_, confirmed) ← decodeWire payloadCodec bytes
  let selection ← orError h.selection (.state "handshake selection")
  ensure (confirmed = selection.bytes) .selectionBytesMismatch
  pure h

def receiveGrantDelivery : Except HandshakeError Handshake := do
  ensure (h.config.mode = .merge) (.malformed "handshake grant mode")
  ensure (h.isAuthenticated = true) .outOfOrder
  ensure (h.grant = none) .duplicate
  let (_, grant) ← decodeWire payloadCodec bytes
  ensure (grant ≠ []) (.malformed "handshake grant")
  pure { h with grant := some grant }

def receiveAt (kind : HandshakeKind) (bytes : List UInt8) : Except HandshakeError Handshake :=
  match kind with
  | .initiatorHello => h.receiveInitiatorHello p bytes
  | .responderHello => h.receiveResponderHello p bytes
  | .responderProof => h.receiveProof p .responder bytes
  | .initiatorProof => h.receiveProof p .initiator bytes
  | .selectionConfirmation => h.receiveConfirmation bytes
  | .mergeGrantDelivery => .error (.malformed "handshake message kind")

def receiveNext (kind : HandshakeKind) (bytes : List UInt8) : Except HandshakeError Handshake := do
  ensure (h.completed < protocolPositions) .terminal
  ensure (h.completed < kind.position) .duplicate
  ensure (kind.position ≤ h.completed + 1) .outOfOrder
  let next ← h.receiveAt p kind bytes
  pure { next with completed := next.completed + 1 }

def receive : Except HandshakeError Handshake := do
  replaceError (validateCanonical bytes controlCborLimits) .nonCanonical
  let (arity, kind) ← probe bytes
  ensure (arity = kind.arity) .unknownField
  ensure (kind.sender ≠ h.config.role) .roleSwapped
  if kind = .mergeGrantDelivery then h.receiveGrantDelivery bytes else h.receiveNext p kind bytes

end Handshake

def responderSessionMessage (sha256 : Hash) (transcript : List UInt8) : List UInt8 :=
  signatureMessage sha256 sessionResponderDomain transcript

def initiatorSessionMessage (sha256 : Hash) (transcript : List UInt8) : List UInt8 :=
  signatureMessage sha256 sessionInitiatorDomain transcript

end Radiata.Protocol
