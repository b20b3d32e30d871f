import Radiata.Identity.Terminal
import Radiata.Reconcile.Wire

/-!
# Applying tombstone rows

The tombstone lane's apply: a row is decoded under the kind its key names, checked
against the bindings and the watermark the batch loaded at its start, and handed to its
family's install.  A row that does not decode is refused; a row that the family's policy
turns down is passed over; any other error ends the batch and keeps what the rows before
it stored.
-/

namespace Radiata.Membership

open Lib Lib.Cbor Identity Reconcile

inductive TombstoneKind where
  | leave
  | cleanup
  | revocation
  | checkpoint
deriving DecidableEq

namespace TombstoneKind

def code : TombstoneKind → UInt8
  | leave => 1
  | cleanup => 2
  | revocation => 3
  | checkpoint => 4

def fromPrefix (byte : UInt8) : Option TombstoneKind :=
  if byte = 1 then some leave
  else if byte = 2 then some cleanup
  else if byte = 3 then some revocation
  else if byte = 4 then some checkpoint
  else none

def rowKey (kind : TombstoneKind) (subject : List UInt8) : List UInt8 := kind.code :: subject

lemma fromPrefix_code (kind : TombstoneKind) : fromPrefix kind.code = some kind := by
  cases kind <;> rfl

end TombstoneKind

inductive TombstoneRow where
  | leave (record : LeaveRecordV1)
  | cleanup (record : CleanupRecordV1)
  | revocation (record : RevocationRecordV1)
  | checkpoint (record : CleanupCheckpointV1)
deriving DecidableEq

def idBytes (id : NodeId) : List UInt8 := utf8 (String.ofList id.text)

def checkpointKey : List UInt8 := utf8 "checkpoint"

def decodeSubject {α : Type} (format : RecordFormat α) (subjectOf : α → List UInt8)
    (subject content : List UInt8) : Option α :=
  match format.decode content with
  | .ok record => if subjectOf record = subject then some record else none
  | .error _ => none

def decodeTombstoneRow (v : Verifier) (row : Row) : Option TombstoneRow :=
  match row.key with
  | [] => none
  | byte :: subject =>
    match TombstoneKind.fromPrefix byte with
    | none => none
    | some .leave =>
      match decodeSubject leaveFormat (fun r => idBytes r.node) subject row.content with
      | some record => if v.leave record then some (.leave record) else none
      | none => none
    | some .cleanup =>
      (decodeSubject cleanupFormat (fun r => idBytes r.subject) subject row.content).map .cleanup
    | some .revocation =>
      (decodeSubject revocationFormat (fun r => idBytes r.subject) subject row.content).map
        .revocation
    | some .checkpoint =>
      (decodeSubject checkpointFormat (fun _ => checkpointKey) subject row.content).map
        .checkpoint

def TombstoneRow.row : TombstoneRow → Row
  | .leave r => listed .leave (idBytes r.node) (leaveFormat.encode r)
  | .cleanup r => listed .cleanup (idBytes r.subject) (cleanupFormat.encode r)
  | .revocation r => listed .revocation (idBytes r.subject) (revocationFormat.encode r)
  | .checkpoint c => listed .checkpoint checkpointKey (checkpointFormat.encode c)
where
  listed (kind : TombstoneKind) (subject : List UInt8) (encoded : Result (List UInt8)) : Row :=
    ⟨kind.rowKey subject, encoded.toOption.getD []⟩

def TombstoneRow.valid (v : Verifier) : TombstoneRow → Bool
  | .leave r => (leaveFormat.encode r).isOk && v.leave r
  | .cleanup r => (cleanupFormat.encode r).isOk
  | .revocation r => (revocationFormat.encode r).isOk
  | .checkpoint c => (checkpointFormat.encode c).isOk

lemma decodeSubject_encode {α : Type} {format : RecordFormat α} {record : α}
    (h : (format.encode record).isOk = true) (subjectOf : α → List UInt8) :
    decodeSubject format subjectOf (subjectOf record) ((format.encode record).toOption.getD []) =
      some record := by
  cases hencode : format.encode record with
  | error e =>
    rw [hencode] at h
    cases h
  | ok bytes =>
    have hdecode : format.decode bytes = .ok record := RecordFormat.decode_eq_ok.mpr hencode
    simp [decodeSubject, hdecode, Except.toOption]

lemma decodeTombstoneRow_row {v : Verifier} {decoded : TombstoneRow} (h : decoded.valid v = true) :
    decodeTombstoneRow v decoded.row = some decoded := by
  cases decoded with
  | leave r =>
    obtain ⟨hencode, hverifies⟩ := Bool.and_eq_true_iff.mp h
    simp only [decodeTombstoneRow, TombstoneRow.row, TombstoneRow.row.listed,
      TombstoneKind.rowKey, TombstoneKind.fromPrefix_code]
    rw [decodeSubject_encode hencode fun r => idBytes r.node]
    exact if_pos hverifies
  | cleanup r | revocation r =>
    simp only [decodeTombstoneRow, TombstoneRow.row, TombstoneRow.row.listed,
      TombstoneKind.rowKey, TombstoneKind.fromPrefix_code]
    rw [decodeSubject_encode h fun r => idBytes r.subject, Option.map_some]
  | checkpoint c =>
    simp only [decodeTombstoneRow, TombstoneRow.row, TombstoneRow.row.listed,
      TombstoneKind.rowKey, TombstoneKind.fromPrefix_code]
    rw [decodeSubject_encode h fun _ => checkpointKey, Option.map_some]

structure TombstoneEvidence where
  bindings : NodeId → Option PublicKey
  checkpoint : Option Millis

def tombstoneEvidence (store : IdentityStore) : Result TombstoneEvidence := do
  let checkpoint ← latestCheckpointMillis store
  pure ⟨store.bindings, checkpoint⟩

def collected (checkpoint : Option Millis) (timestampMillis : Millis) : Bool :=
  checkpoint.any fun watermark => timestampMillis.1 ≤ watermark.1

section Apply

variable (v : Verifier) (evidence : TombstoneEvidence) (store : IdentityStore)

def applyLeaveRecord (record : LeaveRecordV1) : Result IdentityStore :=
  if collected evidence.checkpoint record.timestampMillis then pure store
  else
    match evidence.bindings record.node with
    | none => pure store
    | some boundKey => do
        require (boundKey = record.publicKey) (.notTrusted "leave record binding")
        persistLeaveRecord v store record

def applyCleanupRecord (record : CleanupRecordV1) : Result IdentityStore :=
  if collected evidence.checkpoint record.timestampMillis then pure store
  else if (evidence.bindings record.issuer).isNone ∨ (evidence.bindings record.subject).isNone then
    pure store
  else persistCleanupRecord v store record

def applyRevocationRecord (record : RevocationRecordV1) : Result IdentityStore :=
  if (evidence.bindings record.issuer).isNone ∨ (evidence.bindings record.subject).isNone then
    pure store
  else persistRevocation v store record

def applyCheckpointRecord (record : CleanupCheckpointV1) : Result IdentityStore :=
  persistCheckpoint store record

def passingOver (kinds : List ErrorKind) (store : IdentityStore) :
    Result IdentityStore → Result IdentityStore
  | .ok next => .ok next
  | .error e => if e.kind ∈ kinds then .ok store else .error e

def applyRow : TombstoneRow → Result IdentityStore
  | .leave record => passingOver [.notTrusted] store (applyLeaveRecord v evidence store record)
  | .cleanup record =>
    passingOver [.conflict, .notTrusted, .authenticationFailed] store
      (applyCleanupRecord v evidence store record)
  | .revocation record =>
    passingOver [.conflict, .notTrusted, .authenticationFailed] store
      (applyRevocationRecord v evidence store record)
  | .checkpoint record => applyCheckpointRecord store record

end Apply

def applyRowsUnder (v : Verifier) (evidence : TombstoneEvidence) :
    IdentityStore → List Row → IdentityStore × Result (List Row)
  | store, [] => (store, .ok [])
  | store, row :: rows =>
    match decodeTombstoneRow v row with
    | none =>
      let (final, refused) := applyRowsUnder v evidence store rows
      (final, refused.map (row :: ·))
    | some decoded =>
      match applyRow v evidence store decoded with
      | .error e => (store, .error e)
      | .ok next => applyRowsUnder v evidence next rows

def applyTombstoneRows (v : Verifier) (store : IdentityStore) (rows : List Row) :
    IdentityStore × Result (List Row) :=
  match tombstoneEvidence store with
  | .error e => (store, .error e)
  | .ok evidence => applyRowsUnder v evidence store rows

def applyBatches (v : Verifier) (store : IdentityStore) (batches : List (List Row)) :
    IdentityStore :=
  batches.foldl (fun s rows => (applyTombstoneRows v s rows).1) store

end Radiata.Membership
