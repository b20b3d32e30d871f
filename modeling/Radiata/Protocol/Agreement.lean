import Radiata.Protocol.HandshakeSteps

/-!
# Handshake agreement

Any number of honest endpoints run the handshake while an adversary chooses every message they
are given and when.  An endpoint that authenticated a peer under a key of an honest node agrees
with an endpoint that owns the key: both hold one transcript, and with it the mode, the
generation, both hellos, the selection and the channel binding.

Two assumptions carry the argument.  `Unforged` is asked of every delivered message: a signature
in it that verifies a session message under an honest key covers a message the key already
signed.  It is stated over session messages only, since a node's key signs under other domains
as well.  `CollisionFree` is asked of the transcripts that the endpoints hold, since no function
to digests is injective on all byte strings.
-/

namespace Radiata.Protocol

open Lib Lib.Cbor Lib.Checked Reconcile
open Identity (FixedBytes PublicKey Signature)

/-! ## Endpoints and their driver -/

structure Endpoint where
  handshake : Handshake
  live : Bool
  accepted : List (HandshakeKind × List UInt8)

namespace Handshake

variable (p : Primitives) (h : Handshake)

def nextSend : Option HandshakeKind :=
  match h.config.role, h.completed with
  | .initiator, 0 => some .initiatorHello
  | .responder, 1 => some .responderHello
  | .responder, 2 => some .responderProof
  | .initiator, 3 => some .initiatorProof
  | .responder, 4 => some .selectionConfirmation
  | _, _ => none

def toSign : Option (PublicKey × List UInt8) :=
  match h.nextSend with
  | some .responderProof =>
    h.transcript.map fun t => (h.config.localKey, responderSessionMessage p.sha256 t)
  | some .initiatorProof =>
    h.transcript.map fun t => (h.config.localKey, initiatorSessionMessage p.sha256 t)
  | _ => none

def signAndSend (kind : HandshakeKind) (signature : Signature) :
    Except HandshakeError (List UInt8 × Handshake) := do
  let _ ← orError h.transcript (.state "handshake transcript")
  h.sendProof p kind signature

def send (signature : Signature) : Except HandshakeError Handshake :=
  match h.nextSend with
  | some .initiatorHello => Prod.snd <$> h.initiatorHello
  | some .responderHello => Prod.snd <$> h.responderHello
  | some .responderProof => Prod.snd <$> h.signAndSend p .responderProof signature
  | some .initiatorProof => Prod.snd <$> h.signAndSend p .initiatorProof signature
  | some .selectionConfirmation => Prod.snd <$> h.selectionConfirmation
  | _ => .ok h

end Handshake

namespace Endpoint

variable (p : Primitives) (e : Endpoint)

def settle : Except HandshakeError Handshake → Endpoint
  | .ok h => { e with handshake := h }
  | .error _ => { e with live := false }

def logged (bytes : List UInt8) : List (HandshakeKind × List UInt8) :=
  match probe bytes with
  | .ok (_, kind) => [(kind, bytes)]
  | .error _ => []

def deliver (bytes : List UInt8) : Endpoint :=
  match e.handshake.receive p bytes with
  | .ok h => { e with handshake := h, accepted := e.accepted ++ logged bytes }
  | .error _ => { e with live := false }

end Endpoint

/-! ## Worlds -/

inductive Action (ι : Type) where
  | deliver (i : ι) (bytes : List UInt8)
  | send (i : ι) (signature : Signature)
  | grant (i : ι) (bytes : List UInt8)

structure World (ι : Type) where
  endpoint : ι → Endpoint
  signed : Set (PublicKey × List UInt8)

section World

variable {ι : Type} [DecidableEq ι] (p : Primitives) (honest : Set PublicKey)

def Action.target : Action ι → ι
  | .deliver i _ | .send i _ | .grant i _ => i

def Endpoint.act (e : Endpoint) : Action ι → Endpoint
  | .deliver _ bytes => e.deliver p bytes
  | .send _ signature => e.settle (e.handshake.send p signature)
  | .grant _ bytes => e.settle (Prod.snd <$> e.handshake.mergeGrantDelivery bytes)

def Endpoint.signs (e : Endpoint) : Action ι → Set (PublicKey × List UInt8)
  | .send _ _ => {entry | e.handshake.toSign p = some entry}
  | _ => ∅

variable (w : World ι)

def World.step (action : Action ι) : World ι :=
  let e := w.endpoint action.target
  if e.live = true then
    { endpoint := Function.update w.endpoint action.target (e.act p action)
      signed := w.signed ∪ e.signs p action }
  else w

/-- A signature in a delivered message that verifies a session message under an honest key
covers a message that the key signed. -/
def Unforged : Action ι → Prop
  | .deliver _ bytes => ∀ wire (signature : Signature), decodeWire proofCodec bytes = .ok wire →
      wire.2.2 = signature.1 → ∀ key ∈ honest, ∀ role t,
        p.verify key (signatureMessage p.sha256 (sessionDomain role) t) signature = true →
          (key, signatureMessage p.sha256 (sessionDomain role) t) ∈ w.signed
  | _ => True

inductive Reachable : World ι → Prop
  | start (endpoint : ι → Endpoint)
      (fresh : ∀ i, ∃ config registry h, Handshake.new config registry = .ok h ∧
        endpoint i = ⟨h, true, []⟩) :
      Reachable ⟨endpoint, ∅⟩
  | step (w : World ι) (action : Action ι) (reached : Reachable w)
      (unforged : Unforged p honest w action) : Reachable (w.step p action)

def CollisionFree : Prop :=
  ∀ i j t t', (w.endpoint i).handshake.transcript = some t →
    (w.endpoint j).handshake.transcript = some t' →
      bodyDigest p.sha256 t = bodyDigest p.sha256 t' → t = t'

end World

/-! ## What an endpoint knows -/

def Role.helloPosition (role : Role) : ℕ := (Handshake.helloKind role.other).position

def Role.proofPosition (role : Role) : ℕ := (Handshake.proofKind role.other).position

structure Established (p : Primitives) (h : Handshake) (peer : HelloView) (selection : Selection)
    (t : List UInt8) : Prop where
  known : h.peerHello = some peer
  selected : h.selection = some selection
  held : h.transcript = some t
  offers : FeatureOffer.decode peer.offerBytes = .ok peer.offer
  selects : select p.sha256 h.registry h.localView.offer peer.offer h.localView.offer.required
    peer.offer.required = .ok selection
  assembles : assembleTranscript h.config.mode h.config.generation (h.inRoleOrder peer).1
    (h.inRoleOrder peer).2 selection.bytes h.config.channelBinding = .ok t

def ProvedCredential (p : Primitives) (e : Endpoint) (t : List UInt8) : Prop :=
  ∃ bytes wire secret, (Handshake.proofKind e.handshake.config.role.other, bytes) ∈ e.accepted ∧
    decodeWire proofCodec bytes = .ok wire ∧ e.handshake.config.credential = some secret ∧
    wire.2.1 = some (p.deriveProof e.handshake.config.role.other e.handshake.config.channelBinding
      secret (bodyDigest p.sha256 t)).1

structure Proved (p : Primitives) (honest : Set PublicKey) (signed : Set (PublicKey × List UInt8))
    (e : Endpoint) (peer : HelloView) (t : List UInt8) : Prop where
  known : e.handshake.peerHello = some peer
  held : e.handshake.transcript = some t
  signed : peer.publicKey ∈ honest → (peer.publicKey,
    signatureMessage p.sha256 (sessionDomain e.handshake.config.role.other) t) ∈ signed
  credential : e.handshake.config.mode = .merge → ProvedCredential p e t

structure Coherent (p : Primitives) (honest : Set PublicKey) (signed : Set (PublicKey × List UInt8))
    (e : Endpoint) : Prop where
  view : e.handshake.localView.nodeId = e.handshake.config.localId ∧
    e.handshake.localView.publicKey = e.handshake.config.localKey
  offers : FeatureOffer.decode e.handshake.localView.offerBytes = .ok e.handshake.localView.offer
  fresh : e.handshake.completed < e.handshake.config.role.helloPosition →
    e.handshake.transcript = none
  established : e.handshake.config.role.helloPosition ≤ e.handshake.completed →
    ∃ peer selection t, Established p e.handshake peer selection t
  proved : e.handshake.config.role.proofPosition ≤ e.handshake.completed →
    ∃ peer t, Proved p honest signed e peer t
  granted : e.handshake.grant.isSome = true → e.handshake.completed = protocolPositions
  ascending : (e.accepted.map fun m => m.1.position).Pairwise (· < ·)
  within : ∀ m ∈ e.accepted,
    m.1.position ≤ e.handshake.completed ∨ e.handshake.grant.isSome = true

/-! ## Steps of one endpoint -/

lemma map_snd_eq_ok {α β : Type} {x : Except HandshakeError (α × β)} {b : β}
    (h : Prod.snd <$> x = .ok b) : ∃ a, x = .ok (a, b) := by
  cases x with
  | error e => cases h
  | ok pair => exact ⟨pair.1, congrArg Except.ok (Prod.ext rfl (Except.ok.inj h))⟩

variable {h' : Handshake} {kind : HandshakeKind} {bytes : List UInt8}

namespace Handshake

variable {p : Primitives} {h : Handshake}

structure Sent (h h' : Handshake) : Prop where
  turn : ∃ kind : HandshakeKind, kind ≠ .mergeGrantDelivery ∧ h.config.role = kind.sender ∧
    h.completed + 1 = kind.position
  moved : h' = { h with completed := h.completed + 1 }

lemma sent_of {α : Type} {codec : Codec α} {wire : α} (hkind : kind ≠ .mergeGrantDelivery)
    (hbegin : h.beginSend kind = .ok ()) (hfinish : h.finishSend codec wire = .ok (bytes, h')) :
    Sent h h' :=
  ⟨⟨kind, hkind, beginSend_eq_ok hbegin⟩, (finishSend_eq_ok hfinish).2⟩

variable {signature : Signature}

lemma signAndSend_sent (hkind : kind ≠ .mergeGrantDelivery)
    (hok : h.signAndSend p kind signature = .ok (bytes, h')) : Sent h h' := by
  obtain ⟨t, -, hok⟩ := bind_ok_iff.mp hok
  obtain ⟨⟨⟩, hbegin, hok⟩ := bind_ok_iff.mp hok
  obtain ⟨proof, -, hfinish⟩ := bind_ok_iff.mp hok
  exact sent_of hkind hbegin hfinish

lemma send_cases (hok : h.send p signature = .ok h') : h' = h ∨ Sent h h' := by
  unfold send at hok
  split at hok
  · obtain ⟨bytes, hsend⟩ := map_snd_eq_ok hok
    obtain ⟨⟨⟩, hbegin, hfinish⟩ := bind_ok_iff.mp hsend
    exact .inr (sent_of (by decide) hbegin hfinish)
  · obtain ⟨bytes, hsend⟩ := map_snd_eq_ok hok
    obtain ⟨⟨⟩, hbegin, hfinish⟩ := bind_ok_iff.mp hsend
    exact .inr (sent_of (by decide) hbegin hfinish)
  · obtain ⟨bytes, hsend⟩ := map_snd_eq_ok hok
    exact .inr (signAndSend_sent (by decide) hsend)
  · obtain ⟨bytes, hsend⟩ := map_snd_eq_ok hok
    exact .inr (signAndSend_sent (by decide) hsend)
  · obtain ⟨bytes, hsend⟩ := map_snd_eq_ok hok
    obtain ⟨⟨⟩, hbegin, hsend⟩ := bind_ok_iff.mp hsend
    obtain ⟨selection, -, hfinish⟩ := bind_ok_iff.mp hsend
    exact .inr (sent_of (by decide) hbegin hfinish)
  · exact .inl (Except.ok.inj hok).symm

lemma mergeGrantDelivery_eq_ok {grant : List UInt8}
    (hok : h.mergeGrantDelivery grant = .ok (bytes, h')) : h' = { h with grantSent := true } := by
  unfold mergeGrantDelivery at hok
  obtain ⟨-, hok⟩ := ensure_bind_eq_ok.mp hok
  obtain ⟨-, hok⟩ := ensure_bind_eq_ok.mp hok
  obtain ⟨-, hok⟩ := ensure_bind_eq_ok.mp hok
  obtain ⟨-, hok⟩ := ensure_bind_eq_ok.mp hok
  obtain ⟨-, hok⟩ := ensure_bind_eq_ok.mp hok
  obtain ⟨encoded, -, hok⟩ := bind_ok_iff.mp hok
  exact (congrArg Prod.snd (Except.ok.inj hok)).symm

lemma Sent.ne_helloPosition (hsent : Sent h h') :
    h.completed + 1 ≠ h.config.role.helloPosition := by
  obtain ⟨kind, -, hrole, hposition⟩ := hsent.turn
  rw [hrole, hposition]
  cases kind <;> decide

lemma Sent.ne_proofPosition (hsent : Sent h h') :
    h.completed + 1 ≠ h.config.role.proofPosition := by
  obtain ⟨kind, -, hrole, hposition⟩ := hsent.turn
  rw [hrole, hposition]
  cases kind <;> decide

lemma Sent.not_complete (hsent : Sent h h') : h.completed ≠ protocolPositions := by
  obtain ⟨kind, hkind, -, hposition⟩ := hsent.turn
  intro hcompleted
  rw [hcompleted] at hposition
  cases kind
  case mergeGrantDelivery => exact hkind rfl
  all_goals exact absurd hposition (by decide)

end Handshake

lemma Role.helloPosition_lt_proofPosition (role : Role) :
    role.helloPosition < role.proofPosition := by
  cases role <;> decide

/-! ## The invariant of one endpoint -/

variable {signed : Set (PublicKey × List UInt8)}

section Coherence

variable {p : Primitives} {honest : Set PublicKey} {signed' : Set (PublicKey × List UInt8)}
variable {e : Endpoint}

lemma Proved.mono {peer : HelloView} {t : List UInt8} (h : Proved p honest signed e peer t)
    (hsubset : signed ⊆ signed') : Proved p honest signed' e peer t :=
  ⟨h.known, h.held, fun hkey => hsubset (h.signed hkey), h.credential⟩

lemma Coherent.mono (h : Coherent p honest signed e) (hsubset : signed ⊆ signed') :
    Coherent p honest signed' e :=
  { h with
    proved := fun hposition => by
      obtain ⟨peer, t, hproved⟩ := h.proved hposition
      exact ⟨peer, t, hproved.mono hsubset⟩ }

lemma Coherent.stop (h : Coherent p honest signed e) :
    Coherent p honest signed { e with live := false } :=
  ⟨h.view, h.offers, h.fresh, h.established,
    fun hposition => by
      obtain ⟨peer, t, hp⟩ := h.proved hposition
      exact ⟨peer, t, { hp with }⟩,
    h.granted, h.ascending, h.within⟩

lemma Coherent.new {config : HandshakeConfig} {registry : FeatureRegistry} {h : Handshake}
    (hnew : Handshake.new config registry = .ok h) : Coherent p honest signed ⟨h, true, []⟩ := by
  have hbuilt : ∃ offerBytes, config.localOffer.encode = .ok offerBytes ∧
      h = ⟨config, registry, 0, ⟨config.localId, config.localKey, config.localNonce, offerBytes,
        config.localOffer⟩, none, none, none, false, none⟩ := by
    unfold Handshake.new at hnew
    cases hmode : config.mode with
    | merge | member =>
      rw [hmode] at hnew
      obtain ⟨-, hnew⟩ := ensure_bind_eq_ok.mp hnew
      obtain ⟨offerBytes, hoffer, hnew⟩ := bind_ok_iff.mp hnew
      exact ⟨offerBytes, replaceError_eq_ok.mp hoffer, (Except.ok.inj hnew).symm⟩
  obtain ⟨offerBytes, hoffer, rfl⟩ := hbuilt
  -- nothing was received, and every receiving position is positive
  have hhello : 0 < config.role.helloPosition := by cases config.role <;> decide
  have hproof : 0 < config.role.proofPosition := by cases config.role <;> decide
  exact ⟨⟨rfl, rfl⟩, FeatureOffer.decode_encode hoffer, fun _ => rfl,
    fun hposition => absurd hposition (Nat.not_le.mpr hhello),
    fun hposition => absurd hposition (Nat.not_le.mpr hproof), fun hgrant => (by cases hgrant),
    List.Pairwise.nil, fun _ hm => absurd hm List.not_mem_nil⟩

lemma Coherent.sent (h : Coherent p honest signed e) (hsent : Handshake.Sent e.handshake h') :
    Coherent p honest signed { e with handshake := h' } := by
  have hhello := hsent.ne_helloPosition
  have hproof := hsent.ne_proofPosition
  have hcomplete := hsent.not_complete
  have hmoved := hsent.moved
  subst hmoved
  refine ⟨h.view, h.offers, fun hlow => h.fresh ?_, fun hhigh => ?_, fun hhigh => ?_, fun hgrant =>
    ?_,
    h.ascending, fun m hm => ?_⟩
  · dsimp only at hlow
    omega
  · dsimp only at hhigh
    obtain ⟨peer, selection, t, he⟩ := h.established (by omega)
    exact ⟨peer, selection, t, { he with }⟩
  · dsimp only at hhigh
    obtain ⟨peer, t, hp⟩ := h.proved (by omega)
    exact ⟨peer, t, { hp with }⟩
  · exact absurd (h.granted hgrant) hcomplete
  · exact (h.within m hm).imp_left fun hle => Nat.le_succ_of_le hle

lemma optionalField_some {n : ℕ} {value : Option (List UInt8)} {context : String}
    {field : FixedBytes n} (hok : optionalField n value context = .ok (some field)) :
    value = some field.1 := by
  cases value with
  | none => cases hok
  | some bytes =>
    cases hfield : fixedField n bytes context with
    | error error =>
      rw [optionalField, hfield] at hok
      cases hok
    | ok read =>
      rw [optionalField, hfield] at hok
      cases hok
      exact congrArg some (Handshake.fixedField_eq_ok hfield)

lemma checkProof_merge {h : Handshake} {role : Role} {proof : Option (FixedBytes 32)}
    {t : List UInt8} (hmode : h.config.mode = .merge) (ht : h.transcript = some t)
    (hok : h.checkProof p role proof = .ok ()) :
    ∃ secret, h.config.credential = some secret ∧
      proof = some (p.deriveProof role h.config.channelBinding secret (bodyDigest p.sha256 t)) := by
  unfold Handshake.checkProof at hok
  rw [hmode] at hok
  cases proof with
  | none => cases hok
  | some actual =>
    obtain ⟨secret, hsecret, hok⟩ := bind_ok_iff.mp hok
    obtain ⟨digest, hdigest, hok⟩ := bind_ok_iff.mp hok
    have hd := orError_eq_ok.mp hdigest
    rw [Handshake.transcriptDigest, ht, Option.map_some, Option.some_inj] at hd
    subst hd
    exact ⟨secret, orError_eq_ok.mp hsecret,
      congrArg some (eq_of_beq (ensure_eq_ok.mp hok)).symm⟩

lemma Coherent.ascending_append (h : Coherent p honest signed e)
    (hgrant : e.handshake.grant.isSome = false) (hlater : e.handshake.completed < kind.position) :
    ((e.accepted ++ [(kind, bytes)]).map fun m => m.1.position).Pairwise (· < ·) := by
  rw [List.map_append, List.pairwise_append]
  refine ⟨h.ascending, List.pairwise_singleton _ _, fun a ha b hb => ?_⟩
  obtain ⟨m, hm, rfl⟩ := List.mem_map.mp ha
  rw [List.map_singleton, List.mem_singleton] at hb
  rw [hb]
  rcases h.within m hm with hle | hsome
  · exact lt_of_le_of_lt hle hlater
  · rw [hgrant] at hsome
    cases hsome

lemma Coherent.next (h : Coherent p honest signed e) (kind : HandshakeKind) (bytes : List UInt8)
    (hlast : kind.position ≤ protocolPositions)
    (hturn : kind.position = e.handshake.completed + 1) :
    e.handshake.grant.isSome = false ∧
      ((e.accepted ++ [(kind, bytes)]).map fun m => m.1.position).Pairwise (· < ·) ∧
      ∀ m ∈ e.accepted ++ [(kind, bytes)], m.1.position ≤ e.handshake.completed + 1 := by
  have hgrant : e.handshake.grant.isSome = false := by
    by_contra hsome
    have hcomplete := h.granted (Bool.eq_true_of_not_eq_false hsome)
    omega
  refine ⟨hgrant, h.ascending_append hgrant (by omega), fun m hm => ?_⟩
  rcases List.mem_append.mp hm with hm | hm
  · rcases h.within m hm with hle | hsome
    · exact Nat.le_succ_of_le hle
    · rw [hgrant] at hsome
      cases hsome
  · rw [List.mem_singleton.mp hm]
    exact hturn.le

/-- **Accepting a message keeps the invariant.** -/
theorem Coherent.accept (h : Coherent p honest signed e)
    (haccepts : Handshake.Accepts p e.handshake bytes kind h')
    (hunforged : ∀ wire (signature : Signature), decodeWire proofCodec bytes = .ok wire → wire.2.2
      = signature.1 → ∀ key ∈ honest, ∀ role t, p.verify key (signatureMessage p.sha256
      (sessionDomain role) t) signature = true → (key, signatureMessage p.sha256 (sessionDomain
      role) t) ∈ signed) : Coherent p honest signed
      { e with handshake := h', accepted := e.accepted ++ [(kind, bytes)] } := by
  have horder := e.handshake.config.role.helloPosition_lt_proofPosition
  cases haccepts with
  | hello peer selection t turn distinct expected offers selects assembles =>
    have hlast : (Handshake.helloKind e.handshake.config.role.other).position ≤
        protocolPositions := by
      cases e.handshake.config.role <;> decide
    obtain ⟨hgrant, hascending, hwithin⟩ := h.next _ bytes hlast turn
    have hposition : e.handshake.config.role.helloPosition = e.handshake.completed + 1 := turn
    refine ⟨h.view, h.offers, fun hlow => absurd hlow (by dsimp only; omega), fun _ => ?_,
      fun hhigh => absurd hhigh (by dsimp only; omega), fun hsome => ?_, hascending,
      fun m hm => .inl (hwithin m hm)⟩
    · exact ⟨peer, selection, t, rfl, rfl, rfl, offers, selects, assembles⟩
    · rw [hgrant] at hsome
      cases hsome
  | proof wire proof signature peer t turn decodes offered carries proves known held verifies =>
    have hlast : (Handshake.proofKind e.handshake.config.role.other).position ≤
        protocolPositions := by
      cases e.handshake.config.role <;> decide
    obtain ⟨hgrant, hascending, hwithin⟩ := h.next _ bytes hlast turn
    have hposition : e.handshake.config.role.proofPosition = e.handshake.completed + 1 := turn
    refine ⟨h.view, h.offers, fun hlow => absurd hlow (by dsimp only; omega), fun _ => ?_,
      fun _ => ⟨peer, t, known, held, fun hkey => ?_, fun hmode => ?_⟩, fun hsome => ?_, hascending,
      fun m hm => .inl (hwithin m hm)⟩
    · obtain ⟨peer', selection, t', he⟩ := h.established (by omega)
      exact ⟨peer', selection, t', { he with }⟩
    · exact hunforged wire signature decodes carries _ hkey _ _ verifies
    · obtain ⟨secret, hsecret, hproof⟩ := checkProof_merge hmode held proves
      rw [hproof] at offered
      exact ⟨bytes, wire, secret, List.mem_append_right _ (List.mem_singleton.mpr rfl), decodes,
        hsecret, optionalField_some offered⟩
    · rw [hgrant] at hsome
      cases hsome
  | confirmation wire selection initiator turn decodes held confirms =>
    obtain ⟨hgrant, hascending, hwithin⟩ := h.next .selectionConfirmation bytes (by decide)
      (by rw [turn]; rfl)
    have hhello : e.handshake.config.role.helloPosition = 2 := by rw [initiator]; rfl
    have hproof : e.handshake.config.role.proofPosition = 3 := by rw [initiator]; rfl
    refine ⟨h.view, h.offers, fun hlow => absurd hlow (by dsimp only; omega), fun _ => ?_,
      fun _ => ?_, fun hsome => ?_, hascending, fun m hm => .inl (hwithin m hm)⟩
    · obtain ⟨peer, chosen, t, he⟩ := h.established (by omega)
      exact ⟨peer, chosen, t, { he with }⟩
    · obtain ⟨peer, t, hp⟩ := h.proved (by omega)
      refine ⟨peer, t, hp.known, hp.held, hp.signed, fun hmode => ?_⟩
      obtain ⟨b, wire', secret, hmem, hrest⟩ := hp.credential hmode
      exact ⟨b, wire', secret, List.mem_append_left _ hmem, hrest⟩
    · rw [hgrant] at hsome
      cases hsome
  | grant wire initiator merge authenticated first decodes nonempty =>
    have hcomplete : e.handshake.completed = protocolPositions := eq_of_beq authenticated
    have hnone : e.handshake.grant.isSome = false := by rw [first]; rfl
    have hlater : e.handshake.completed < HandshakeKind.mergeGrantDelivery.position := by
      rw [hcomplete]
      decide
    refine ⟨h.view, h.offers, h.fresh, fun hhigh => ?_, fun hhigh => ?_, fun _ => hcomplete,
      h.ascending_append hnone hlater, fun m _ => .inr rfl⟩
    · obtain ⟨peer, chosen, t, he⟩ := h.established hhigh
      exact ⟨peer, chosen, t, { he with }⟩
    · obtain ⟨peer, t, hp⟩ := h.proved hhigh
      refine ⟨peer, t, hp.known, hp.held, hp.signed, fun hmode => ?_⟩
      obtain ⟨b, wire', secret, hmem, hrest⟩ := hp.credential hmode
      exact ⟨b, wire', secret, List.mem_append_left _ hmem, hrest⟩

end Coherence

/-! ## The invariant of a run -/

structure Keeps (h h' : Handshake) : Prop where
  config : h'.config = h.config
  localView : h'.localView = h.localView
  transcript : ∀ t, h.transcript = some t → h'.transcript = some t

lemma Keeps.refl (h : Handshake) : Keeps h h := ⟨rfl, rfl, fun _ ht => ht⟩

section Run

variable {p : Primitives} {honest : Set PublicKey}
variable {e : Endpoint}

lemma Coherent.keeps (h : Coherent p honest signed e) {kind : HandshakeKind} {bytes : List UInt8}
    (haccepts : Handshake.Accepts p e.handshake bytes kind h') : Keeps e.handshake h' := by
  cases haccepts with
  | hello peer selection t turn distinct expected offers selects assembles =>
    refine ⟨rfl, rfl, fun t ht => ?_⟩
    have hnone := h.fresh (Nat.lt_of_succ_le turn.ge)
    rw [hnone] at ht
    cases ht
  | proof | confirmation | grant => exact ⟨rfl, rfl, fun _ ht => ht⟩

lemma toSign_eq_some {h : Handshake} {entry : PublicKey × List UInt8}
    (hsign : h.toSign p = some entry) : ∃ t, h.transcript = some t ∧
      entry = (h.config.localKey, signatureMessage p.sha256 (sessionDomain h.config.role) t) := by
  unfold Handshake.toSign Handshake.nextSend at hsign
  cases hrole : h.config.role with
  | initiator =>
    rw [hrole] at hsign
    split at hsign
    · split at * <;> simp_all
    · obtain ⟨t, ht, rfl⟩ := Option.map_eq_some_iff.mp hsign
      exact ⟨t, ht, rfl⟩
    · cases hsign
  | responder =>
    rw [hrole] at hsign
    split at hsign
    · obtain ⟨t, ht, rfl⟩ := Option.map_eq_some_iff.mp hsign
      exact ⟨t, ht, rfl⟩
    · split at * <;> simp_all
    · cases hsign

variable {ι : Type}

variable {w : World ι} {action : Action ι}

lemma Coherent.act {i : ι} (h : Coherent p honest w.signed (w.endpoint i))
    (hunforged : Unforged p honest w action) :
    Coherent p honest w.signed ((w.endpoint i).act p action) ∧
      Keeps (w.endpoint i).handshake ((w.endpoint i).act p action).handshake := by
  cases action with
  | deliver j bytes =>
    cases hreceive : (w.endpoint i).handshake.receive p bytes with
    | error error =>
      simp only [Endpoint.act, Endpoint.deliver, hreceive]
      exact ⟨h.stop, .refl _⟩
    | ok next =>
      obtain ⟨arity, kind, hprobe, haccepts⟩ := Handshake.receive_accepts hreceive
      simp only [Endpoint.act, Endpoint.deliver, hreceive, Endpoint.logged, hprobe]
      exact ⟨h.accept haccepts hunforged, h.keeps haccepts⟩
  | send j signature =>
    cases hsend : (w.endpoint i).handshake.send p signature with
    | error error =>
      simp only [Endpoint.act, Endpoint.settle, hsend]
      exact ⟨h.stop, .refl _⟩
    | ok next =>
      simp only [Endpoint.act, Endpoint.settle, hsend]
      rcases Handshake.send_cases hsend with rfl | hsent
      · exact ⟨h, .refl _⟩
      · refine ⟨h.sent hsent, ?_⟩
        rw [hsent.moved]
        exact ⟨rfl, rfl, fun _ ht => ht⟩
  | grant j bytes =>
    cases hgrant : Prod.snd <$> (w.endpoint i).handshake.mergeGrantDelivery bytes with
    | error error =>
      simp only [Endpoint.act, Endpoint.settle, hgrant]
      exact ⟨h.stop, .refl _⟩
    | ok next =>
      obtain ⟨sent, hdelivery⟩ := map_snd_eq_ok hgrant
      simp only [Endpoint.act, Endpoint.settle, hgrant]
      obtain rfl := Handshake.mergeGrantDelivery_eq_ok hdelivery
      refine ⟨⟨h.view, h.offers, h.fresh, fun hhigh => ?_, fun hhigh => ?_, h.granted,
        h.ascending, h.within⟩, ⟨rfl, rfl, fun _ ht => ht⟩⟩
      · obtain ⟨peer, chosen, t, he⟩ := h.established hhigh
        exact ⟨peer, chosen, t, { he with }⟩
      · obtain ⟨peer, t, hp⟩ := h.proved hhigh
        exact ⟨peer, t, { hp with }⟩

def SignedBy (p : Primitives) (w : World ι) (entry : PublicKey × List UInt8) : Prop :=
  ∃ j t, (w.endpoint j).handshake.config.localKey = entry.1 ∧
    (w.endpoint j).handshake.transcript = some t ∧
    entry.2 = signatureMessage p.sha256 (sessionDomain (w.endpoint j).handshake.config.role) t

variable [DecidableEq ι]

structure RunInvariant (p : Primitives) (honest : Set PublicKey) (w : World ι) : Prop where
  coherent : ∀ i, Coherent p honest w.signed (w.endpoint i)
  signed : ∀ entry ∈ w.signed, SignedBy p w entry

lemma RunInvariant.step (h : RunInvariant p honest w) (hunforged : Unforged p honest w action) :
    RunInvariant p honest (w.step p action) := by
  unfold World.step
  dsimp only
  split_ifs with hlive
  swap
  · exact h
  obtain ⟨hcoherent, hkeeps⟩ := (h.coherent action.target).act hunforged
  -- the acting endpoint keeps what it holds, and the others do not move
  have hall : ∀ j, Keeps (w.endpoint j).handshake (Function.update w.endpoint action.target
      ((w.endpoint action.target).act p action) j).handshake := by
    intro j
    by_cases hj : j = action.target
    · subst hj
      rw [Function.update_self]
      exact hkeeps
    · rw [Function.update_of_ne hj]
      exact .refl _
  have hsignedBy : ∀ entry, SignedBy p w entry → SignedBy p
      { endpoint := Function.update w.endpoint action.target
          ((w.endpoint action.target).act p action)
        signed := w.signed ∪ (w.endpoint action.target).signs p action } entry := by
    rintro entry ⟨j, t, hkey, ht, hmessage⟩
    refine ⟨j, t, ?_, (hall j).transcript t ht, ?_⟩
    · exact (congrArg HandshakeConfig.localKey (hall j).config).trans hkey
    · dsimp only
      rw [(hall j).config]
      exact hmessage
  refine ⟨fun j => ?_, fun entry hentry => hsignedBy entry ?_⟩
  · by_cases hj : j = action.target
    · subst hj
      dsimp only
      rw [Function.update_self]
      exact hcoherent.mono Set.subset_union_left
    · dsimp only
      rw [Function.update_of_ne hj]
      exact (h.coherent j).mono Set.subset_union_left
  · rcases hentry with hold | hnew
    · exact h.signed entry hold
    · cases action with
      | send j signature =>
        obtain ⟨t, ht, rfl⟩ := toSign_eq_some hnew
        exact ⟨j, t, rfl, ht, rfl⟩
      | deliver j bytes | grant j bytes => exact absurd hnew (Set.notMem_empty _)

/-- **Every reachable world satisfies the invariant.** -/
theorem Reachable.invariant (h : Reachable p honest w) : RunInvariant p honest w := by
  induction h with
  | start endpoint fresh =>
    refine ⟨fun i => ?_, fun entry hentry => absurd hentry (Set.notMem_empty _)⟩
    obtain ⟨config, registry, built, hnew, hi⟩ := fresh i
    dsimp only
    rw [hi]
    exact .new hnew
  | step w action _ unforged ih => exact ih.step unforged

end Run

/-! ## The transcript determines its parts -/

structure SameHello (a b : HelloView) : Prop where
  nodeId : a.nodeId = b.nodeId
  publicKey : a.publicKey = b.publicKey
  nonce : a.nonce = b.nonce
  offerBytes : a.offerBytes = b.offerBytes

lemma SameHello.eq {a b : HelloView} (h : SameHello a b)
    (ha : FeatureOffer.decode a.offerBytes = .ok a.offer)
    (hb : FeatureOffer.decode b.offerBytes = .ok b.offer) : a = b := by
  obtain ⟨nodeId, publicKey, nonce, offerBytes, offer⟩ := a
  obtain ⟨nodeId', publicKey', nonce', offerBytes', offer'⟩ := b
  obtain ⟨rfl, rfl, rfl, rfl⟩ := h
  rw [ha] at hb
  obtain rfl := Except.ok.inj hb
  rfl

lemma HandshakeMode.text_injective : Function.Injective HandshakeMode.text := by
  intro a b h
  cases a <;> cases b <;> first | rfl | exact absurd h (by decide)

/-- **One transcript has one reading.** -/
theorem assembleTranscript_inj {mode mode' : HandshakeMode}
    {generation generation' : Option (FixedBytes 16)} {a b a' b' : HelloView}
    {selection selection' : List UInt8} {binding binding' : FixedBytes 32} {t : List UInt8}
    (h : assembleTranscript mode generation a b selection binding = .ok t)
    (h' : assembleTranscript mode' generation' a' b' selection' binding' = .ok t) :
    mode = mode' ∧ generation = generation' ∧ SameHello a a' ∧ SameHello b b' ∧
      selection = selection' ∧ binding = binding' := by
  have hwire := encodeCanonical_injective (replaceError_eq_ok.mp h) (replaceError_eq_ok.mp h')
  simp only [transcriptWire, Prod.mk.injEq, List.cons.injEq, and_true, true_and] at hwire
  obtain ⟨hmode, hgeneration, ⟨⟨haId, haKey⟩, hbId, hbKey⟩, ⟨haNonce, hbNonce⟩, ⟨haOffer, hbOffer⟩,
    hselection, hbinding⟩ := hwire
  have hid : ∀ {x y : NodeId}, x.text = y.text → x = y := by
    rintro ⟨x, hx⟩ ⟨y, hy⟩ rfl
    rfl
  exact ⟨HandshakeMode.text_injective hmode,
    Option.map_injective Subtype.val_injective hgeneration,
    ⟨hid haId, Subtype.ext haKey, Subtype.ext haNonce, haOffer⟩,
    ⟨hid hbId, Subtype.ext hbKey, Subtype.ext hbNonce, hbOffer⟩, hselection, Subtype.ext hbinding⟩

variable {role : Role}

lemma sessionDomain_inj {role' : Role} (h : sessionDomain role = sessionDomain role') :
    role = role' := by
  cases role <;> cases role' <;> first | rfl | exact absurd h (by decide +kernel)

lemma length_sessionDomain (role role' : Role) :
    (sessionDomain role).length = (sessionDomain role').length := by
  cases role <;> cases role' <;> decide +kernel

lemma Selects.eq_of_bytes {sha256 sha256' : Hash} {registry registry' : FeatureRegistry}
    {a b a' b' : FeatureOffer} {required required' : Set FeatureTag} {s s' : Selection}
    (h : Selects sha256 registry a b required s) (h' : Selects sha256' registry' a' b' required' s')
    (hbytes : s.bytes = s'.bytes) : s = s' := by
  have hfeatures := encodeCanonical_injective h.bytes (hbytes ▸ h'.bytes)
  obtain ⟨features, bytes⟩ := s
  obtain ⟨features', bytes'⟩ := s'
  obtain rfl : bytes = bytes' := hbytes
  obtain rfl : features = features' :=
    List.map_injective_iff.mpr CategoryTag.value_injective hfeatures
  rfl

/-! ## Agreement -/

/-- Two endpoints hold the same transcript and what it fixes. -/
structure Agree (p : Primitives) (e peer : Endpoint) : Prop where
  role : peer.handshake.config.role = e.handshake.config.role.other
  transcript : ∃ t, e.handshake.transcript = some t ∧ peer.handshake.transcript = some t
  mode : e.handshake.config.mode = peer.handshake.config.mode
  generation : e.handshake.config.generation = peer.handshake.config.generation
  channelBinding : e.handshake.config.channelBinding = peer.handshake.config.channelBinding
  theirs : e.handshake.peerHello = some peer.handshake.localView
  mine : peer.handshake.peerHello = some e.handshake.localView
  selection : ∃ selection, e.handshake.selection = some selection ∧
    peer.handshake.selection = some selection
  credential : e.handshake.config.mode = .merge →
    ∃ t, e.handshake.transcript = some t ∧ ProvedCredential p e t

section Agreement

variable {p : Primitives} {honest : Set PublicKey}

lemma Coherent.established_of_held {e : Endpoint} {t : List UInt8}
    (h : Coherent p honest signed e) (ht : e.handshake.transcript = some t) :
    ∃ peer selection, Established p e.handshake peer selection t := by
  have hposition : e.handshake.config.role.helloPosition ≤ e.handshake.completed := by
    by_contra hlow
    rw [h.fresh (Nat.not_le.mp hlow)] at ht
    cases ht
  obtain ⟨peer, selection, t', he⟩ := h.established hposition
  obtain rfl : t' = t := Option.some_inj.mp (he.held.symm.trans ht)
  exact ⟨peer, selection, he⟩

lemma Established.agree {e e' : Endpoint} {peer peer' : HelloView} {s s' : Selection}
    {t : List UInt8} (hc : Coherent p honest signed e) (hc' : Coherent p honest signed e')
    (hrole : e'.handshake.config.role = e.handshake.config.role.other)
    (h : Established p e.handshake peer s t) (h' : Established p e'.handshake peer' s' t) :
    e.handshake.config.mode = e'.handshake.config.mode ∧
      e.handshake.config.generation = e'.handshake.config.generation ∧
      e.handshake.config.channelBinding = e'.handshake.config.channelBinding ∧
      peer = e'.handshake.localView ∧ peer' = e.handshake.localView ∧ s = s' := by
  obtain ⟨hmode, hgeneration, hfirst, hsecond, hselection, hbinding⟩ :=
    assembleTranscript_inj h.assembles h'.assembles
  have hs : s = s' :=
    (select_eq_ok.mp h.selects).eq_of_bytes (select_eq_ok.mp h'.selects) hselection
  -- the roles decide which of the two hellos is the own one
  cases hown : e.handshake.config.role with
  | initiator =>
    rw [hown] at hrole
    simp only [Handshake.inRoleOrder, hown, hrole, Role.other] at hfirst hsecond
    exact ⟨hmode, hgeneration, hbinding, hsecond.eq h.offers hc'.offers,
      (hfirst.eq hc.offers h'.offers).symm, hs⟩
  | responder =>
    rw [hown] at hrole
    simp only [Handshake.inRoleOrder, hown, hrole, Role.other] at hfirst hsecond
    exact ⟨hmode, hgeneration, hbinding, hfirst.eq h.offers hc'.offers,
      (hsecond.eq hc.offers h'.offers).symm, hs⟩

variable {ι : Type} [DecidableEq ι]

/-- **Authenticated endpoints agree with the owner of the peer's key.** -/
theorem authenticated_agrees {w : World ι} (hw : Reachable p honest w) (hfree : CollisionFree p w)
    {i : ι} (hauthenticated : (w.endpoint i).handshake.isAuthenticated = true) {id : NodeId}
    {key : PublicKey} (hpeer : (w.endpoint i).handshake.peerIdentity = some (id, key))
    (hkey : key ∈ honest) :
    (∃ j, (w.endpoint j).handshake.config.localId = id ∧
        (w.endpoint j).handshake.config.localKey = key ∧ Agree p (w.endpoint i) (w.endpoint j)) ∧
      ∀ k, ((w.endpoint k).accepted.map fun m => m.1.position).Pairwise (· < ·) := by
  have hinv := hw.invariant
  refine ⟨?_, fun k => (hinv.coherent k).ascending⟩
  have hi := hinv.coherent i
  have hcomplete : (w.endpoint i).handshake.completed = protocolPositions :=
    eq_of_beq hauthenticated
  have hposition : (w.endpoint i).handshake.config.role.proofPosition ≤
      (w.endpoint i).handshake.completed := by
    rw [hcomplete]
    cases (w.endpoint i).handshake.config.role <;> decide
  obtain ⟨peer, t, hproved⟩ := hi.proved hposition
  rw [Handshake.peerIdentity, hproved.known, Option.map_some, Option.some_inj] at hpeer
  obtain ⟨rfl, rfl⟩ := Prod.mk.inj hpeer
  -- the verified signature was made by an endpoint over its own transcript
  obtain ⟨j, t', howner, ht', hmessage⟩ := hinv.signed _ (hproved.signed hkey)
  obtain ⟨hdomain, hdigest⟩ := signatureMessage_inj (length_sessionDomain _ _) hmessage
  have hrole := (sessionDomain_inj hdomain).symm
  obtain rfl : t = t' := hfree i j t t' hproved.held ht' hdigest
  have hj := hinv.coherent j
  obtain ⟨peer', selection, he⟩ := hi.established_of_held hproved.held
  obtain ⟨peer'', selection', he'⟩ := hj.established_of_held ht'
  obtain rfl : peer' = peer := Option.some_inj.mp (he.known.symm.trans hproved.known)
  obtain ⟨hmode, hgeneration, hbinding, htheirs, hmine, rfl⟩ := he.agree hi hj hrole he'
  refine ⟨j, ?_, howner, hrole, ⟨t, he.held, ht'⟩, hmode, hgeneration, hbinding,
    htheirs ▸ he.known, hmine ▸ he'.known, ⟨selection, he.selected, he'.selected⟩,
    fun hmerge => ⟨t, he.held, hproved.credential hmerge⟩⟩
  rw [htheirs]
  exact hj.view.1.symm

end Agreement

/-! ## A merge between two nodes -/

def filled (n : ℕ) (byte : UInt8) : FixedBytes n := ⟨List.replicate n byte, List.length_replicate⟩

def byteTotal (bytes : List UInt8) : UInt8 := bytes.foldl (· + ·) 0

def emptyOffer : FeatureOffer :=
  ⟨[], [], List.Pairwise.nil, List.Pairwise.nil, by decide, by decide,
    fun _ h => absurd h List.not_mem_nil⟩

lemma initiator_valid : ValidId "node".toList "node-aaaaaaaaaaaaaaaaaaaaa".toList := by
  decide +kernel

lemma responder_valid : ValidId "node".toList "node-bbbbbbbbbbbbbbbbbbbbb".toList := by
  decide +kernel

def sampleId : Role → NodeId
  | .initiator => ⟨_, initiator_valid⟩
  | .responder => ⟨_, responder_valid⟩

def sampleKey : Role → PublicKey
  | .initiator => filled 32 1
  | .responder => filled 32 2

def openSignature (bytes : List UInt8) : List UInt8 :=
  sessionDomain (if bytes[32]? = some 0 then .initiator else .responder) ++
    List.replicate 32 (bytes[33]?.getD 0)

def samplePrimitives : Primitives where
  sha256 bytes := Vector.replicate 32 (byteTotal bytes)
  verify key message signature :=
    decide (key.1 = signature.1.take 32 ∧ message = openSignature signature.1)
  hkdf binding secret info := filled 32 (byteTotal (binding.1 ++ secret.1 ++ info))
  hmac key digest := filled 32 (byteTotal (key.1 ++ digest.toList))

section

variable (role : Role)

def sampleSign (t : List UInt8) : Signature :=
  ⟨(sampleKey role).1 ++
    ((if role = .initiator then 0 else 1) :: List.replicate 31 (byteTotal t)), by
    rw [List.length_append, (sampleKey role).2, List.length_cons, List.length_replicate]⟩

def sampleConfig : HandshakeConfig where
  mode := .merge
  role := role
  localId := sampleId role
  localKey := sampleKey role
  expectedPeer := none
  generation := some (filled 16 7)
  credential := some (filled 32 9)
  localNonce := filled 32 (if role = .initiator then 3 else 4)
  localOffer := emptyOffer
  channelBinding := filled 32 5

def emptyRegistry : FeatureRegistry := .empty

def sampleHandshake : Handshake where
  config := sampleConfig role
  registry := emptyRegistry
  completed := 0
  localView := ⟨sampleId role, sampleKey role, (sampleConfig role).localNonce, [130, 128, 128],
    emptyOffer⟩
  peerHello := none
  selection := none
  transcript := none
  grantSent := false
  grant := none

lemma sampleHandshake_new :
    Handshake.new (sampleConfig role) emptyRegistry = .ok (sampleHandshake role) := by
  have hoffer : emptyOffer.encode = .ok [130, 128, 128] := by decide +kernel
  unfold Handshake.new
  rw [show (sampleConfig role).localOffer = emptyOffer from rfl, hoffer]
  rfl

end

section Relay

variable (p : Primitives) (sign : Role → List UInt8 → Signature)

def outgoing (h : Handshake) (signature : Signature) : Except HandshakeError (List UInt8) :=
  match h.nextSend with
  | some .initiatorHello => Prod.fst <$> h.initiatorHello
  | some .responderHello => Prod.fst <$> h.responderHello
  | some .responderProof => Prod.fst <$> h.responderProof p signature
  | some .initiatorProof => Prod.fst <$> h.initiatorProof p signature
  | some .selectionConfirmation => Prod.fst <$> h.selectionConfirmation
  | _ => .ok []

def signatureOf (w : World Role) (role : Role) : Signature :=
  sign role ((w.endpoint role).handshake.transcript.getD [])

def relayed (w : World Role) (role : Role) : List UInt8 :=
  (outgoing p (w.endpoint role).handshake (signatureOf sign w role)).toOption.getD []

def relay (w : World Role) (role : Role) : World Role :=
  (w.step p (.send role (signatureOf sign w role))).step p
    (.deliver role.other (relayed p sign w role))

variable {p sign} {honest : Set PublicKey}

variable {w : World Role}

lemma Reachable.relay (h : Reachable p honest w) (role : Role)
    (hunforged : Unforged p honest (w.step p (.send role (signatureOf sign w role))) (.deliver
      role.other (relayed p sign w role))) : Reachable p honest (Protocol.relay p sign w role) :=
  .step _ _ (.step _ _ h trivial) hunforged

lemma unforged_of_not_proof {i : Role} {bytes : List UInt8}
    (h : (decodeWire proofCodec bytes).isOk = false) : Unforged p honest w (.deliver i bytes) := by
  intro wire signature hdecode
  rw [hdecode] at h
  cases h

lemma mem_signed_send {signature : Signature} {entry : PublicKey × List UInt8}
    (hlive : (w.endpoint role).live = true)
    (hsign : (w.endpoint role).handshake.toSign p = some entry) :
    entry ∈ (w.step p (.send role signature)).signed := by
  unfold World.step
  dsimp only [Action.target]
  rw [if_pos hlive]
  exact Set.mem_union_right _ hsign

end Relay

variable {w : World Role} {t : List UInt8}

lemma unforged_of_signed {i : Role} {bytes : List UInt8}
    (hdecode : (decodeWire proofCodec bytes).toOption.map (fun wire => wire.2.2) = some (sampleSign
      role t).1) (hmem : (sampleKey role, openSignature (sampleSign role t).1) ∈ w.signed) :
    Unforged samplePrimitives Set.univ w (.deliver i bytes) := by
  intro wire signature hwire hcarries key _ role' t' hverify
  rw [hwire] at hdecode
  obtain hread : wire.2.2 = (sampleSign role t).1 := Option.some_inj.mp hdecode
  rw [hread] at hcarries
  obtain ⟨hkey, hmessage⟩ := of_decide_eq_true hverify
  have hfront : (sampleSign role t).1.take 32 = (sampleKey role).1 := by
    rw [sampleSign, List.take_append_of_le_length (sampleKey role).2.ge,
      List.take_of_length_le (sampleKey role).2.le]
  have hsame : key = sampleKey role := Subtype.ext (by rw [hkey, ← hcarries]; exact hfront)
  rw [hsame, hmessage, ← hcarries]
  exact hmem

def speaker (n : ℕ) : Role := if n = 0 ∨ n = 3 then .initiator else .responder

def sampleWorld : ℕ → World Role
  | 0 => ⟨fun role => ⟨sampleHandshake role, true, []⟩, ∅⟩
  | n + 1 => relay samplePrimitives sampleSign (sampleWorld n) (speaker n)

lemma unforged_sample_proof (hlive : (w.endpoint role).live = true)
    (hsign : (w.endpoint role).handshake.toSign samplePrimitives = some (sampleKey role,
      openSignature (signatureOf sampleSign w role).1))
    (hdecode : (decodeWire proofCodec (relayed samplePrimitives sampleSign w role)).toOption.map
      (fun wire => wire.2.2) = some (signatureOf sampleSign w role).1) :
    Unforged samplePrimitives Set.univ
      (w.step samplePrimitives (.send role (signatureOf sampleSign w role)))
      (.deliver role.other (relayed samplePrimitives sampleSign w role)) :=
  unforged_of_signed hdecode (mem_signed_send hlive hsign)

lemma sampleWorld_message : ∀ n ∈ List.range 5,
    (decodeWire proofCodec
      (relayed samplePrimitives sampleSign (sampleWorld n) (speaker n))).isOk = false ∨
    ((sampleWorld n).endpoint (speaker n)).live = true ∧
      ((sampleWorld n).endpoint (speaker n)).handshake.toSign samplePrimitives =
        some (sampleKey (speaker n),
          openSignature (signatureOf sampleSign (sampleWorld n) (speaker n)).1) ∧
      (decodeWire proofCodec
        (relayed samplePrimitives sampleSign (sampleWorld n) (speaker n))).toOption.map
          (fun wire => wire.2.2) = some (signatureOf sampleSign (sampleWorld n) (speaker n)).1 := by
  decide +kernel

lemma sampleWorld_reachable {n : ℕ} (hn : n ≤ 5) :
    Reachable samplePrimitives Set.univ (sampleWorld n) := by
  induction n with
  | zero =>
    exact .start _ fun role => ⟨sampleConfig role, emptyRegistry, sampleHandshake role,
      sampleHandshake_new role, rfl⟩
  | succ n ih =>
    refine (ih (Nat.le_of_succ_le hn)).relay (speaker n) ?_
    rcases sampleWorld_message n (List.mem_range.mpr hn) with hother | ⟨hlive, hsign, hdecode⟩
    · exact unforged_of_not_proof hother
    · exact unforged_sample_proof hlive hsign hdecode

lemma collisionFree_of_eq {p : Primitives}
    (h : (w.endpoint .initiator).handshake.transcript = (w.endpoint
      .responder).handshake.transcript) : CollisionFree p w := by
  have hall : ∀ i, (w.endpoint i).handshake.transcript =
      (w.endpoint .responder).handshake.transcript := by
    intro i
    cases i with
    | initiator => exact h
    | responder => rfl
  intro i j t t' hi hj _
  rw [hall i] at hi
  rw [hall j] at hj
  exact Option.some_inj.mp (hi.symm.trans hj)

/-- The merge of the two sample nodes ends in agreement. -/
theorem sample_merge_agrees :
    ((sampleWorld 5).endpoint .initiator).handshake.isAuthenticated = true ∧
      ∃ j, ((sampleWorld 5).endpoint j).handshake.config.localId = sampleId .responder ∧
        ((sampleWorld 5).endpoint j).handshake.config.localKey = sampleKey .responder ∧
        Agree samplePrimitives ((sampleWorld 5).endpoint .initiator) ((sampleWorld 5).endpoint j) :=
  have hauthenticated :
      ((sampleWorld 5).endpoint .initiator).handshake.isAuthenticated = true := by decide +kernel
  ⟨hauthenticated, (authenticated_agrees (sampleWorld_reachable le_rfl)
    (collisionFree_of_eq (by decide +kernel)) hauthenticated (by decide +kernel)
    (Set.mem_univ _)).1⟩

end Radiata.Protocol
