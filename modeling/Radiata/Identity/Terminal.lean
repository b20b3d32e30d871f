import Radiata.Identity.Record
import Radiata.Lib.Register

/-!
# Terminal records and the identity store

The four tombstone families and the store rows they share with the identity bindings.
A leave record has one legitimate value per node: an exact replay is a no-op and a
divergent record conflicts.  Cleanup and revocation records from different issuers
compete for one slot through a merge decision, and the cleanup checkpoint keeps the
highest watermark.

Signature checks are a parameter: what the strict verification of each family's signed
body answers.
-/

namespace Radiata.Identity

open Lib Lib.Cbor Protocol

abbrev Millis := Codec.Signed64

/-! ## Records -/

structure LeaveRecordV1 where
  node : NodeId
  publicKey : PublicKey
  timestampMillis : Millis
  signature : Signature
deriving DecidableEq

structure CleanupRecordV1 where
  subject : NodeId
  subjectKey : PublicKey
  issuer : NodeId
  timestampMillis : Millis
  signature : Signature
deriving DecidableEq

structure RevocationRecordV1 where
  subject : NodeId
  subjectKey : PublicKey
  issuer : NodeId
  signature : Signature
deriving DecidableEq

structure CleanupCheckpointV1 where
  watermarkMillis : Millis
  issuer : NodeId
deriving DecidableEq

def flatRecordLimits : CborLimits := ⟨1, 8, 1024⟩

def leaveFormat : RecordFormat LeaveRecordV1 where
  schema := "radiata.woooo.tech/schemas/v1/leave-record".toList
  version := 1
  limits := flatRecordLimits
  label := "leave record"
  canonicalContext := "leave record canonical form"
  headerError := "leave record schema"
  Parts := NodeId × PublicKey × Millis × Signature
  fields := .cons .node (.cons (.key32 "leave record key") (.cons .stamp
    (.last (.sig "leave record signature"))))
  parts r := (r.node, r.publicKey, r.timestampMillis, r.signature)
  make := fun (node, publicKey, timestampMillis, signature) =>
    ⟨node, publicKey, timestampMillis, signature⟩
  make_parts _ := rfl
  parts_make _ := rfl

def cleanupFormat : RecordFormat CleanupRecordV1 where
  schema := "radiata.woooo.tech/schemas/v1/cleanup-record".toList
  version := 1
  limits := flatRecordLimits
  label := "cleanup record"
  canonicalContext := "cleanup record canonical form"
  headerError := "cleanup record schema"
  Parts := NodeId × PublicKey × NodeId × Millis × Signature
  fields := .cons .node (.cons (.key32 "cleanup record key") (.cons .node (.cons .stamp
    (.last (.sig "cleanup record signature")))))
  parts r := (r.subject, r.subjectKey, r.issuer, r.timestampMillis, r.signature)
  make := fun (subject, subjectKey, issuer, timestampMillis, signature) =>
    ⟨subject, subjectKey, issuer, timestampMillis, signature⟩
  make_parts _ := rfl
  parts_make _ := rfl

def revocationFormat : RecordFormat RevocationRecordV1 where
  schema := "radiata.woooo.tech/schemas/v1/revocation-record".toList
  version := 1
  limits := flatRecordLimits
  label := "revocation record"
  canonicalContext := "revocation record canonical form"
  headerError := "revocation record schema"
  Parts := NodeId × PublicKey × NodeId × Signature
  fields := .cons .node (.cons (.key32 "revocation record key") (.cons .node
    (.last (.sig "revocation record signature"))))
  parts r := (r.subject, r.subjectKey, r.issuer, r.signature)
  make := fun (subject, subjectKey, issuer, signature) => ⟨subject, subjectKey, issuer, signature⟩
  make_parts _ := rfl
  parts_make _ := rfl

def checkpointFormat : RecordFormat CleanupCheckpointV1 where
  schema := "radiata.woooo.tech/schemas/v1/cleanup-checkpoint".toList
  version := 1
  limits := flatRecordLimits
  label := "cleanup checkpoint"
  canonicalContext := "cleanup checkpoint canonical form"
  headerError := "cleanup checkpoint schema"
  Parts := Millis × NodeId
  fields := .cons .stamp (.last .node)
  parts r := (r.watermarkMillis, r.issuer)
  make := fun (watermarkMillis, issuer) => ⟨watermarkMillis, issuer⟩
  make_parts _ := rfl
  parts_make _ := rfl

structure Verifier where
  leave : LeaveRecordV1 → Bool
  cleanup : PublicKey → CleanupRecordV1 → Bool
  revocation : PublicKey → RevocationRecordV1 → Bool

/-! ## The store -/

structure IdentityStore where
  bindings : NodeId → Option PublicKey
  leave : NodeId → Option (List UInt8)
  cleanup : NodeId → Option (List UInt8)
  revocation : NodeId → Option (List UInt8)
  checkpoint : Option (List UInt8)

def IdentityStore.bound (bindings : NodeId → Option PublicKey) : IdentityStore :=
  ⟨bindings, fun _ => none, fun _ => none, fun _ => none, none⟩

variable (store : IdentityStore)

def latestCheckpointMillis : Result (Option Millis) :=
  match store.checkpoint with
  | none => .ok none
  | some bytes => (checkpointFormat.decode bytes).map fun c => some c.watermarkMillis

/-! ## Installing terminal records -/

inductive TerminalWinner where
  | stored
  | fresh

variable (slot : Option (List UInt8))

def persistTerminalRecord (encoded : List UInt8) (label : String) : Result (List UInt8) :=
  match slot with
  | some existing => do
      require (existing = encoded) (.conflict label)
      pure existing
  | none => pure encoded

def persistConvergentTerminalRecord (encoded : List UInt8)
    (decides : List UInt8 → List UInt8 → Result TerminalWinner) : Result (List UInt8) :=
  match slot with
  | some existing =>
    if existing = encoded then pure existing
    else do
      match ← decides existing encoded with
      | .stored => pure existing
      | .fresh => pure encoded
  | none => pure encoded

def cleanupMerge (stored fresh : List UInt8) : Result TerminalWinner := do
  let storedRecord ← cleanupFormat.decode stored
  let freshRecord ← cleanupFormat.decode fresh
  require (storedRecord.subjectKey = freshRecord.subjectKey) (.conflict "cleanup record")
  if freshRecord.timestampMillis.1 < storedRecord.timestampMillis.1 then pure .fresh
  else if storedRecord.timestampMillis.1 < freshRecord.timestampMillis.1 then pure .stored
  else if fresh < stored then pure .fresh
  else pure .stored

def revocationMerge (stored fresh : List UInt8) : Result TerminalWinner := do
  let storedRecord ← revocationFormat.decode stored
  let freshRecord ← revocationFormat.decode fresh
  require (storedRecord.subjectKey = freshRecord.subjectKey) (.conflict "revocation record")
  if fresh < stored then pure .fresh else pure .stored

def verifyRetainedBindings (issuer subject : NodeId) (subjectKey : PublicKey)
    (verifies : PublicKey → Bool)
    (issuerContext subjectContext signatureContext : String) : Result Unit := do
  match store.bindings issuer with
  | none => throw (.notTrusted issuerContext)
  | some issuerKey =>
    require (verifies issuerKey) (.authenticationFailed signatureContext)
    require (∀ bound ∈ store.bindings subject, bound = subjectKey) (.notTrusted subjectContext)

variable (v : Verifier)

section

variable (store : IdentityStore)

def persistLeaveRecord (record : LeaveRecordV1) : Result IdentityStore := do
  require (v.leave record) (.authenticationFailed "leave record signature")
  require (∀ bound ∈ store.bindings record.node, bound = record.publicKey)
    (.notTrusted "leave record binding")
  let encoded ← leaveFormat.encode record
  let slot ← persistTerminalRecord (store.leave record.node) encoded "leave record"
  pure { store with leave := Function.update store.leave record.node (some slot) }

def persistCleanupRecord (record : CleanupRecordV1) : Result IdentityStore := do
  verifyRetainedBindings store record.issuer record.subject record.subjectKey
    (fun key => v.cleanup key record) "cleanup issuer" "cleanup subject binding"
    "cleanup record signature"
  let encoded ← cleanupFormat.encode record
  let slot ← persistConvergentTerminalRecord (store.cleanup record.subject) encoded cleanupMerge
  pure { store with cleanup := Function.update store.cleanup record.subject (some slot) }

def persistRevocation (record : RevocationRecordV1) : Result IdentityStore := do
  verifyRetainedBindings store record.issuer record.subject record.subjectKey
    (fun key => v.revocation key record) "revocation issuer" "revocation subject binding"
    "revocation record signature"
  let encoded ← revocationFormat.encode record
  let slot ← persistConvergentTerminalRecord (store.revocation record.subject) encoded
    revocationMerge
  pure { store with revocation := Function.update store.revocation record.subject (some slot) }

end

def checkpointCovers (watermark : Millis) : Result Bool := do
  let stored ← latestCheckpointMillis store
  pure (stored.any fun s => watermark.1 ≤ s.1)

def persistCheckpoint (checkpoint : CleanupCheckpointV1) : Result IdentityStore := do
  if ← checkpointCovers store checkpoint.watermarkMillis then pure store
  else do
    let encoded ← checkpointFormat.encode checkpoint
    pure { store with checkpoint := some encoded }

end Radiata.Identity
