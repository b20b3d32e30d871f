import Radiata.Identity.Terminal
import Radiata.Storage.WriteNotes

/-!
# Bindings and their collection

A binding pins one key to a node.  It is read at admission behind the departure and
revocation checks, adopted once per node, and retired by the checkpoint collection, which
deletes a terminal record that the watermark covers together with the binding it pins.

A change of the store answers with the families it noted, in order.
-/

namespace Radiata.Identity

open Lib Lib.Cbor Protocol Storage

/-! ## The record -/

structure IdentityBindingV1 where
  node : NodeId
  publicKey : PublicKey
deriving DecidableEq

namespace IdentityBindingV1

def schema : Text := "radiata.woooo.tech/schemas/v1/identity-binding".toList

def algorithm : Text := "radiata.woooo.tech/crypto/ed25519".toList

def recordLimits : CborLimits := ⟨1, 16, 1024⟩

def codec : Codec (Text × UInt64 × Text × List UInt8 × Text) :=
  .array (.cons .chars (.cons .u64 (.cons .chars (.cons .byteVec (.last .chars)))))

def encode (binding : IdentityBindingV1) : Result (List UInt8) :=
  encodeCanonical codec (schema, 1, binding.node.text, binding.publicKey.1, algorithm) recordLimits

def decode (bytes : List UInt8) : Result IdentityBindingV1 := do
  let wire ← decodeCanonicalStrict codec bytes recordLimits "identity record canonical form"
  require (wire.1 = schema) (.invalidInput "identity record schema")
  require (wire.2.1 = 1) (.invalidInput "identity record version")
  require (wire.2.2.2.2 = algorithm) (.invalidInput "identity record algorithm")
  let node ← NodeId.parse wire.2.2.1
  let publicKey ← fixedBytes 32 wire.2.2.2.1 "identity public key"
  pure ⟨node, publicKey⟩

lemma decode_eq_ok {bytes : List UInt8} {binding : IdentityBindingV1} :
    decode bytes = .ok binding ↔ binding.encode = .ok bytes := by
  constructor
  · intro h
    obtain ⟨⟨s, version, node, key, a⟩, hwire, h⟩ := bind_eq_ok.mp h
    obtain ⟨rfl, h⟩ := require_bind_eq_ok.mp h
    obtain ⟨rfl, h⟩ := require_bind_eq_ok.mp h
    obtain ⟨rfl, h⟩ := require_bind_eq_ok.mp h
    obtain ⟨id, hid, h⟩ := bind_eq_ok.mp h
    obtain ⟨publicKey, hkey, h⟩ := bind_eq_ok.mp h
    obtain rfl := Except.ok.inj h
    have htext : id.text = node := CanonicalId.text_of_parse hid
    have hbytes : publicKey.1 = key := (FieldKind.key32 "identity public key").enc_of_dec hkey
    rw [encode, htext, hbytes]
    exact encodeCanonical_of_decodeStrict hwire
  · intro h
    rw [decode, decodeCanonicalStrict_of_encode "identity record canonical form" h, ok_bind,
      require_bind_eq_ok]
    refine ⟨rfl, require_bind_eq_ok.mpr ⟨rfl, require_bind_eq_ok.mpr ⟨rfl, ?_⟩⟩⟩
    have hnode : NodeId.parse binding.node.text = .ok binding.node := binding.node.parse_text _
    have hkey : fixedBytes 32 binding.publicKey.1 "identity public key" = .ok binding.publicKey :=
      dif_pos binding.publicKey.2
    rw [hnode, ok_bind, hkey]
    rfl

end IdentityBindingV1

/-! ## Reading a binding -/

variable (store : IdentityStore)

def revokedKey (subject : NodeId) : Result (Option PublicKey) :=
  match store.revocation subject with
  | none => .ok none
  | some bytes => (revocationFormat.decode bytes).map fun r => some r.subjectKey

def peerIsTerminal (node : NodeId) : Bool :=
  (store.leave node).isSome || (store.cleanup node).isSome

def trustedBinding (peer : NodeId) : Result PublicKey :=
  if peerIsTerminal store peer then .error (.notTrusted "peer left")
  else
    match store.bindings peer with
    | none => .error (.notFound "session binding")
    | some key => do
        let revoked ← revokedKey store peer
        require (revoked ≠ some key) (.revoked "session binding")
        pure key

lemma bindings_of_trustedBinding {peer : NodeId} {key : PublicKey}
    (h : trustedBinding store peer = .ok key) : store.bindings peer = some key := by
  unfold trustedBinding at h
  split_ifs at h
  cases hbound : store.bindings peer with
  | none =>
    rw [hbound] at h
    cases h
  | some bound =>
    rw [hbound] at h
    obtain ⟨revoked, -, h⟩ := bind_eq_ok.mp h
    obtain ⟨-, h⟩ := require_bind_eq_ok.mp h
    rw [Except.ok.inj h]

/-! ## Adopting a binding -/

def adoptBinding (node : NodeId) (key : PublicKey) : Result (IdentityStore × List Family) :=
  match store.bindings node with
  | some existing => do
      require (existing = key) (.notTrusted "trust binding key substitution")
      pure (store, [])
  | none => do
      let revoked ← revokedKey store node
      require (revoked = none) (.revoked "trust binding adoption")
      let _ ← (IdentityBindingV1.mk node key).encode
      pure ({ store with bindings := Function.update store.bindings node (some key) },
        [.identityBinding])

variable {store}

variable {next : IdentityStore} {noted : List Family}

lemma adoptBinding_eq_ok {node : NodeId} {key : PublicKey}
    (h : adoptBinding store node key = .ok (next, noted)) : next = store ∨
      next = { store with bindings := Function.update store.bindings node (some key) } := by
  unfold adoptBinding at h
  cases hbound : store.bindings node with
  | some existing =>
    rw [hbound] at h
    obtain ⟨-, h⟩ := require_bind_eq_ok.mp h
    exact .inl (Prod.mk.inj (Except.ok.inj h)).1.symm
  | none =>
    rw [hbound] at h
    obtain ⟨revoked, -, h⟩ := bind_eq_ok.mp h
    obtain ⟨-, h⟩ := require_bind_eq_ok.mp h
    obtain ⟨encoded, -, h⟩ := bind_eq_ok.mp h
    exact .inr (Prod.mk.inj (Except.ok.inj h)).1.symm

/-! ## Collection -/

inductive Departure where
  | leave
  | cleanup
deriving DecidableEq

namespace Departure

def record (family : Departure) (store : IdentityStore) : NodeId → Option (List UInt8) :=
  match family with
  | leave => store.leave
  | cleanup => store.cleanup

def delete (family : Departure) (store : IdentityStore) (subject : NodeId) : IdentityStore :=
  match family with
  | leave => { store with leave := Function.update store.leave subject none }
  | cleanup => { store with cleanup := Function.update store.cleanup subject none }

end Departure

/-- One collectible record: the stamp that is compared with the watermark, and the binding
the record pins. -/
structure CollectibleTombstone where
  stampMillis : Millis
  subject : NodeId
  pinnedKey : PublicKey

def Departure.decode : Departure → List UInt8 → Result CollectibleTombstone
  | leave, bytes => (leaveFormat.decode bytes).map fun r => ⟨r.timestampMillis, r.node, r.publicKey⟩
  | cleanup, bytes =>
    (cleanupFormat.decode bytes).map fun r => ⟨r.timestampMillis, r.subject, r.subjectKey⟩

def tombstoneGcBatch : ℕ := 64

/-- The records stamped at or before the watermark, up to a bound; a body that does not decode
fails the scan. -/
def scanCollectibleRecords (decode : List UInt8 → Result CollectibleTombstone)
    (watermark : Millis) :
    ℕ → List (List UInt8) → Result (List CollectibleTombstone)
  | 0, _ => .ok []
  | _, [] => .ok []
  | cap + 1, bytes :: rest => do
      let record ← decode bytes
      if record.stampMillis.1 ≤ watermark.1 then
        (scanCollectibleRecords decode watermark cap rest).map (record :: ·)
      else scanCollectibleRecords decode watermark (cap + 1) rest

/-- The collection retires the subject's binding: it is still the pinned key, and no revocation
keeps it. -/
def pinnedBindingRetirement (store : IdentityStore) (entry : CollectibleTombstone) : Result Bool :=
  if store.bindings entry.subject = some entry.pinnedKey then
    (revokedKey store entry.subject).map Option.isNone
  else .ok false

def collectTombstone (family : Departure) (store : IdentityStore) (entry : CollectibleTombstone) :
    Result (IdentityStore × List Family) :=
  match family.record store entry.subject with
  | none => .ok (store, [])
  | some _ => do
      let retired ← pinnedBindingRetirement store entry
      let deleted := family.delete store entry.subject
      if retired then
        pure ({ deleted with bindings := Function.update deleted.bindings entry.subject none },
          [.identityBinding])
      else pure (deleted, [])

def collectTombstonesBefore (family : Departure) (watermark : Millis) :
    IdentityStore → List CollectibleTombstone → (IdentityStore × List Family) × Result Unit
  | store, [] => ((store, []), .ok ())
  | store, entry :: entries =>
    if watermark.1 < entry.stampMillis.1 then collectTombstonesBefore family watermark store entries
    else
      match collectTombstone family store entry with
      | .error e => ((store, []), .error e)
      | .ok (next, noted) =>
        let ((final, later), result) := collectTombstonesBefore family watermark next entries
        ((final, noted ++ later), result)

def collectBefore (family : Departure) (watermark : Millis) (nodes : List NodeId)
    (store : IdentityStore) : (IdentityStore × List Family) × Result Unit :=
  match scanCollectibleRecords family.decode watermark tombstoneGcBatch
      (nodes.filterMap (family.record store)) with
  | .error e => ((store, []), .error e)
  | .ok entries => collectTombstonesBefore family watermark store entries

def collectCollectedTombstones (nodes : List NodeId) (store : IdentityStore) :
    (IdentityStore × List Family) × Result Unit :=
  match latestCheckpointMillis store with
  | .error e => ((store, []), .error e)
  | .ok none => ((store, []), .ok ())
  | .ok (some watermark) =>
    match collectBefore .leave watermark nodes store with
    | (collected, .error e) => (collected, .error e)
    | ((next, noted), .ok ()) =>
      let ((final, later), result) := collectBefore .cleanup watermark nodes next
      ((final, noted ++ later), result)

/-! ### The collection only deletes -/

structure Within (store base : IdentityStore) : Prop where
  bindings : ∀ node, store.bindings node = none ∨ store.bindings node = base.bindings node
  leave : ∀ node, store.leave node = none ∨ store.leave node = base.leave node
  cleanup : ∀ node, store.cleanup node = none ∨ store.cleanup node = base.cleanup node
  revocation : store.revocation = base.revocation
  checkpoint : store.checkpoint = base.checkpoint

namespace Within

variable {a b c : IdentityStore}

lemma refl (a : IdentityStore) : Within a a :=
  ⟨fun _ => .inr rfl, fun _ => .inr rfl, fun _ => .inr rfl, rfl, rfl⟩

lemma slot_trans {α β : Type} {f g h : α → Option β} (hfg : ∀ x, f x = none ∨ f x = g x)
    (hgh : ∀ x, g x = none ∨ g x = h x) (x : α) : f x = none ∨ f x = h x := by
  rcases hfg x with hnone | heq
  · exact .inl hnone
  · rw [heq]
    exact hgh x

lemma trans (hab : Within a b) (hbc : Within b c) : Within a c :=
  ⟨slot_trans hab.bindings hbc.bindings, slot_trans hab.leave hbc.leave,
    slot_trans hab.cleanup hbc.cleanup, hab.revocation.trans hbc.revocation,
    hab.checkpoint.trans hbc.checkpoint⟩

lemma slot_update {α β : Type} [DecidableEq α] (f : α → Option β) (a x : α) :
    Function.update f a none x = none ∨ Function.update f a none x = f x := by
  by_cases h : x = a
  · exact .inl (h ▸ Function.update_self ..)
  · exact .inr (Function.update_of_ne h ..)

lemma delete (family : Departure) (subject : NodeId) : Within (family.delete a subject) a := by
  cases family with
  | leave => exact ⟨fun _ => .inr rfl, slot_update _ _, fun _ => .inr rfl, rfl, rfl⟩
  | cleanup => exact ⟨fun _ => .inr rfl, fun _ => .inr rfl, slot_update _ _, rfl, rfl⟩

lemma retire (subject : NodeId) :
    Within { a with bindings := Function.update a.bindings subject none } a :=
  ⟨slot_update _ _, fun _ => .inr rfl, fun _ => .inr rfl, rfl, rfl⟩

end Within

lemma collectTombstone_within {family : Departure} {entry : CollectibleTombstone}
    (h : collectTombstone family store entry = .ok (next, noted)) : Within next store := by
  unfold collectTombstone at h
  split at h
  · exact (Prod.mk.inj (Except.ok.inj h)).1 ▸ Within.refl store
  · obtain ⟨retired, -, h⟩ := bind_eq_ok.mp h
    cases retired with
    | true =>
      rw [← (Prod.mk.inj (Except.ok.inj h)).1]
      exact (Within.retire _).trans (Within.delete family _)
    | false =>
      rw [← (Prod.mk.inj (Except.ok.inj h)).1]
      exact Within.delete family _

lemma collectTombstonesBefore_within (family : Departure) (watermark : Millis)
    (entries : List CollectibleTombstone) (store : IdentityStore) :
    Within (collectTombstonesBefore family watermark store entries).1.1 store := by
  induction entries generalizing store with
  | nil => exact .refl store
  | cons entry entries ih =>
    unfold collectTombstonesBefore
    split_ifs
    · exact ih store
    · split
      · exact .refl store
      · next hcollect => exact (ih _).trans (collectTombstone_within hcollect)

lemma collectBefore_within (family : Departure) (watermark : Millis) (nodes : List NodeId)
    (store : IdentityStore) : Within (collectBefore family watermark nodes store).1.1 store := by
  unfold collectBefore
  split
  · exact .refl store
  · exact collectTombstonesBefore_within family watermark _ store

/-- **The collection only deletes**: terminal records and bindings. -/
theorem collectCollectedTombstones_within (nodes : List NodeId) (store : IdentityStore) :
    Within (collectCollectedTombstones nodes store).1.1 store := by
  unfold collectCollectedTombstones
  split
  · exact .refl store
  · exact .refl store
  · next watermark _ =>
      have hleave := collectBefore_within .leave watermark nodes store
      split
      · next hresult =>
          rw [hresult] at hleave
          exact hleave
      · next hresult =>
          rw [hresult] at hleave
          exact (collectBefore_within .cleanup watermark nodes _).trans hleave

end Radiata.Identity
