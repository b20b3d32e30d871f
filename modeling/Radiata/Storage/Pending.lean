import Radiata.Lib.Cbor.Tagged
import Radiata.Lib.Checked
import Radiata.Lib.OrdMap
import Radiata.Storage.Operation

/-!
# The pending journal

A journaled transaction writes a record of itself under a key derived from its purpose: its
identity, base revision and planned operations.  The record's own put and the identifier's marker
are not among the planned operations, they are appended again when the identity is recovered.

The key is the purpose itself, and discovery scans the keys that begin with it.
-/

namespace Radiata.Storage

open Lib Lib.Cbor Protocol
open Reconcile (Hash zeroHash)

/-! ## Planned operations on the wire -/

def digestOfBytes (bytes : List UInt8) (context : String) : Result Digest :=
  if h : bytes.length = 32 then .ok ⟨bytes.toArray, by simpa using h⟩
  else .error (.invalidInput context)

@[simp] lemma digestOfBytes_toList (digest : Digest) (context : String) :
    digestOfBytes digest.toList context = .ok digest := by
  rw [digestOfBytes, dif_pos (by simp)]
  simp [Vector.toList]

inductive ExpectationWire where
  | absent
  | exact (digest : List UInt8)

inductive PlannedOperationWire where
  | check (ns : Text) (key : List UInt8) (expectation : ExpectationWire)
  | put (ns : Text) (key : List UInt8) (expectation : ExpectationWire) (value : List UInt8)
  | delete (ns : Text) (key expected : List UInt8)
  | forgetReceipt (transaction : Text) (expectedOperationDigest : List UInt8)

namespace ExpectationWire

def codec : Codec ExpectationWire :=
  (Codec.tagged ((Tagged.unit 0).or (Tagged.variant 1 (.last .byteVec)) fun _ => rfl)).iso
    (Sum.elim (fun _ => .absent) .exact)
    (fun w => match w with
      | .absent => .inl ()
      | .exact digest => .inr digest)
    fun w => by cases w <;> rfl

def fromExpectation : StoreExpectation → ExpectationWire
  | .absent => .absent
  | .exact digest => .exact digest.toList

def intoExpectation : ExpectationWire → Result StoreExpectation
  | .absent => pure .absent
  | .exact digest => do pure (.exact (← digestOfBytes digest "planned expectation digest"))

@[simp] lemma intoExpectation_from (expectation : StoreExpectation) :
    (fromExpectation expectation).intoExpectation = .ok expectation := by
  cases expectation with
  | absent => rfl
  | exact digest =>
    rw [fromExpectation, intoExpectation, digestOfBytes_toList]
    rfl

end ExpectationWire

namespace PlannedOperationWire

abbrev Variants :=
  (Text × List UInt8 × ExpectationWire) ⊕ (Text × List UInt8 × ExpectationWire × List UInt8) ⊕
    (Text × List UInt8 × List UInt8) ⊕ (Text × List UInt8)

def union : Tagged Variants :=
  (Tagged.variant 0 (.cons .chars (.cons .byteVec (.last ExpectationWire.codec)))).or
    ((Tagged.variant 1 (.cons .chars (.cons .byteVec (.cons ExpectationWire.codec
      (.last .byteVec))))).or
      ((Tagged.variant 2 (.cons .chars (.cons .byteVec (.last .byteVec)))).or
        (Tagged.variant 3 (.cons .chars (.last .byteVec)))
        fun _ => rfl)
      fun b => by rcases b with b | b <;> rfl)
    fun b => by rcases b with b | b | b <;> rfl

def codec : Codec PlannedOperationWire :=
  (Codec.tagged union).iso
    (Sum.elim (fun (ns, key, expectation) => .check ns key expectation)
      (Sum.elim (fun (ns, key, expectation, value) => .put ns key expectation value)
        (Sum.elim (fun (ns, key, expected) => .delete ns key expected)
          fun (transaction, digest) => .forgetReceipt transaction digest)))
    (fun w => match w with
      | .check ns key expectation => .inl (ns, key, expectation)
      | .put ns key expectation value => .inr (.inl (ns, key, expectation, value))
      | .delete ns key expected => .inr (.inr (.inl (ns, key, expected)))
      | .forgetReceipt transaction digest => .inr (.inr (.inr (transaction, digest))))
    fun w => by cases w <;> rfl

def fromOperation : StoreOperation → PlannedOperationWire
  | .check ns key expected => .check ns.value key (.fromExpectation expected)
  | .put ns key expected value => .put ns.value key (.fromExpectation expected) value
  | .delete ns key expected => .delete ns.value key expected.toList
  | .forgetReceipt transaction digest => .forgetReceipt transaction.text digest.toList

def intoOperation : PlannedOperationWire → Result StoreOperation
  | .check ns key expectation => do
      pure (.check (← QualifiedTag.parse ns) key (← expectation.intoExpectation))
  | .put ns key expectation value => do
      pure (.put (← QualifiedTag.parse ns) key (← expectation.intoExpectation) value)
  | .delete ns key expected => do
      pure (.delete (← QualifiedTag.parse ns) key
        (← digestOfBytes expected "planned delete digest"))
  | .forgetReceipt transaction digest => do
      pure (.forgetReceipt (← TransactionId.parse transaction)
        (← digestOfBytes digest "planned forget digest"))

@[simp] lemma intoOperation_from (operation : StoreOperation) :
    (fromOperation operation).intoOperation = .ok operation := by
  cases operation with
  | check ns key expected | put ns key expected value =>
    rw [fromOperation, intoOperation, QualifiedTag.parse_value, ok_bind,
      ExpectationWire.intoExpectation_from]
    rfl
  | delete ns key expected =>
    rw [fromOperation, intoOperation, QualifiedTag.parse_value, ok_bind, digestOfBytes_toList]
    rfl
  | forgetReceipt transaction digest =>
    rw [fromOperation, intoOperation, TransactionId.parse, CanonicalId.parse_text, ok_bind,
      digestOfBytes_toList]
    rfl

end PlannedOperationWire

/-! ## The record -/

def maxPurposeLen : ℕ := 128

variable (purpose : Text)

def ValidPurpose : Prop :=
  purpose ≠ [] ∧ utf8Len purpose ≤ maxPurposeLen ∧ purpose.all isPrintable = true

instance (purpose : Text) : Decidable (ValidPurpose purpose) := by
  unfold ValidPurpose
  infer_instance

def validatePurpose (context : String) : Result Unit :=
  require (ValidPurpose purpose) (.invalidInput context)

def pendingKey : StoreKey := bytesOf purpose

def operationTargetsPendingRecord (ns : StoreNamespace) (key : StoreKey)
    (operation : StoreOperation) :
    Bool :=
  operation.identity == .key ns key

def validatePlannedOperations (operations : List StoreOperation) : Result Unit :=
  require (operations.any (operationTargetsPendingRecord pendingNamespace (pendingKey purpose)) =
    false)
    (.invalidInput "pending transaction plan")

structure PendingTransaction where
  purpose : Text
  transaction : TransactionId
  baseRevision : StoreRevision
  plannedOperations : List StoreOperation
deriving DecidableEq

structure PendingTransactionWire where
  schema : Text
  recordVersion : UInt64
  purpose : Text
  transactionId : Text
  baseRevision : List UInt8
  plannedOperations : List PlannedOperationWire

def PendingTransactionWire.codec : Codec PendingTransactionWire :=
  (Codec.array (.cons .chars (.cons .u64 (.cons .chars (.cons .chars (.cons .byteVec
    (.last (.vec PlannedOperationWire.codec)))))))).iso
    (fun (schema, version, purpose, transaction, revision, operations) =>
      ⟨schema, version, purpose, transaction, revision, operations⟩)
    (fun w => (w.schema, w.recordVersion, w.purpose, w.transactionId, w.baseRevision,
      w.plannedOperations))
    fun _ => rfl

def pendingSchema : Text := "radiata.woooo.tech/schemas/v1/pending-transaction".toList

def pendingRecordVersion : UInt64 := 1

def pendingLimits : CborLimits := ⟨8, 1024, 65536⟩

namespace PendingTransaction

def new (purpose : Text) (transaction : TransactionId) (baseRevision : StoreRevision)
    (plannedOperations : List StoreOperation) : Result PendingTransaction := do
  validatePurpose purpose "pending transaction purpose"
  validatePlannedOperations purpose plannedOperations
  pure ⟨purpose, transaction, baseRevision, plannedOperations⟩

def toWire (record : PendingTransaction) : PendingTransactionWire :=
  ⟨pendingSchema, pendingRecordVersion, record.purpose, record.transaction.text,
    record.baseRevision.bytes, record.plannedOperations.map PlannedOperationWire.fromOperation⟩

def encode (record : PendingTransaction) : Result (List UInt8) :=
  encodeCanonical PendingTransactionWire.codec record.toWire pendingLimits

def decode (bytes : List UInt8) : Result PendingTransaction := do
  let wire ← decodeCanonicalStrict PendingTransactionWire.codec bytes pendingLimits
    "pending transaction canonical form"
  require (wire.schema = pendingSchema) (.invalidInput "pending transaction schema")
  require (wire.recordVersion = pendingRecordVersion) (.invalidInput "pending transaction version")
  let transaction ← TransactionId.parse wire.transactionId
  let baseRevision ← StoreRevision.new wire.baseRevision
  let plannedOperations ← wire.plannedOperations.mapM PlannedOperationWire.intoOperation
  new wire.purpose transaction baseRevision plannedOperations

variable {record : PendingTransaction}

lemma decode_encode {bytes : List UInt8}
    (hnew : new record.purpose record.transaction record.baseRevision record.plannedOperations =
      .ok record) (h : record.encode = .ok bytes) : decode bytes = .ok record := by
  have hwire := decodeCanonicalStrict_of_encode "pending transaction canonical form" h
  rw [decode, hwire, ok_bind]
  simp only [toWire, require, if_true, TransactionId.parse, CanonicalId.parse_text,
    StoreRevision.new_bytes,
    Checked.mapM_map_eq_ok PlannedOperationWire.intoOperation_from, ok_bind]
  exact hnew

lemma new_eq_ok {purpose : Text} {transaction : TransactionId} {baseRevision : StoreRevision}
    {operations : List StoreOperation} :
    new purpose transaction baseRevision operations = .ok record ↔
      ValidPurpose purpose ∧
        operations.any (operationTargetsPendingRecord pendingNamespace (pendingKey purpose)) =
          false ∧
        record = ⟨purpose, transaction, baseRevision, operations⟩ := by
  rw [new, validatePurpose, validatePlannedOperations, require_bind_eq_ok, require_bind_eq_ok]
  exact and_congr_right fun _ => and_congr_right fun _ =>
    ⟨fun h => (Except.ok.inj h).symm, fun h => h ▸ rfl⟩

end PendingTransaction

/-! ## Preparation and recovery -/

def storageCorrupt (context : String) : Error := ⟨.storageCorrupt, context⟩

def pendingPut (purpose : Text) (value : StoreValue) : StoreOperation :=
  .put pendingNamespace (pendingKey purpose) .absent value

/-- Prepares a journaled transaction.  The operations of the receipt changes come from the
snapshot. -/
def prepareJournaledTransaction (sha256 : Hash) (revision : StoreRevision) (id : TransactionId)
    (purpose : Text) (callerOperations : List StoreOperation)
    (receiptOperations : Result (List StoreOperation)) : Result StoreTransaction := do
  validatePurpose purpose "pending transaction purpose"
  require (callerOperations.any operationUsesReservedNamespace = false)
    (.invalidInput "metadata storage reserved namespace")
  require (callerOperations.any
      (operationTargetsPendingRecord pendingNamespace (pendingKey purpose)) = false)
    (.invalidInput "pending transaction record")
  let expanded ← receiptOperations
  let record ← PendingTransaction.new purpose id revision (callerOperations ++ expanded)
  let value ← record.encode
  prepareInternalTransaction sha256 id revision
    (callerOperations ++ expanded ++ [pendingPut purpose value])

/-- The identity of the transaction that wrote a record, rebuilt from the record and its stored
value. -/
def PendingTransaction.recoverIdentity (sha256 : Hash) (record : PendingTransaction)
    (storedValue : StoreValue) : Result (TransactionId × Digest) := do
  let prepared ← Checked.replaceError
    (prepareInternalTransaction sha256 record.transaction record.baseRevision
      (record.plannedOperations ++ [pendingPut record.purpose storedValue]))
    (storageCorrupt "storage snapshot")
  pure (prepared.id, prepared.operationDigest)

structure Journaled (sha256 : Hash) (revision : StoreRevision) (id : TransactionId) (purpose : Text)
    (planned : List StoreOperation) (value : StoreValue) (transaction : StoreTransaction) :
      Prop where
  purpose_valid : ValidPurpose purpose
  built : PendingTransaction.new purpose id revision planned = .ok ⟨purpose, id, revision, planned⟩
  encoded : PendingTransaction.encode ⟨purpose, id, revision, planned⟩ = .ok value
  prepared : prepareInternalTransaction sha256 id revision (planned ++ [pendingPut purpose value]) =
    .ok transaction

lemma prepareJournaledTransaction_ok {sha256 : Hash} {revision : StoreRevision}
    {id : TransactionId} {purpose : Text} {callerOperations : List StoreOperation}
    {receiptOperations : Result (List StoreOperation)} {transaction : StoreTransaction}
    (h : prepareJournaledTransaction sha256 revision id purpose callerOperations receiptOperations =
      .ok transaction) :
    ∃ expanded value, receiptOperations = .ok expanded ∧
      Journaled sha256 revision id purpose (callerOperations ++ expanded) value transaction := by
  obtain ⟨hpurpose, h⟩ := require_bind_eq_ok.mp h
  obtain ⟨-, h⟩ := require_bind_eq_ok.mp h
  obtain ⟨-, h⟩ := require_bind_eq_ok.mp h
  obtain ⟨expanded, hexpanded, h⟩ := bind_eq_ok.mp h
  obtain ⟨record, hrecord, h⟩ := bind_eq_ok.mp h
  obtain ⟨-, -, rfl⟩ := PendingTransaction.new_eq_ok.mp hrecord
  obtain ⟨value, hvalue, hprepared⟩ := bind_eq_ok.mp h
  exact ⟨expanded, value, hexpanded, hpurpose, hrecord, hvalue, hprepared⟩

namespace Journaled

variable {sha256 : Hash} {revision : StoreRevision} {id : TransactionId} {purpose : Text}
  {planned : List StoreOperation} {value : StoreValue} {transaction : StoreTransaction}

section

variable (h : Journaled sha256 revision id purpose planned value transaction)
include h

lemma decode_value : PendingTransaction.decode value = .ok ⟨purpose, id, revision, planned⟩ :=
  PendingTransaction.decode_encode h.built h.encoded

lemma transaction_eq :
    (transaction.operations.map StoreOperation.identity).Nodup ∧ transaction.id = id ∧
      transaction.operations = planned ++ [pendingPut purpose value] ++
        [.put internalNamespace (usedIdKey id) .absent activeMarkerValue] := by
  obtain ⟨-, hnodup, rfl⟩ := StoreTransaction.new_eq_ok.mp h.prepared
  exact ⟨hnodup, rfl, rfl⟩

lemma stores_iff {operation : StoreOperation} : operation ∈ transaction.operations ∧
        operation.identity = .key pendingNamespace (pendingKey purpose) ↔
      operation = pendingPut purpose value := by
  obtain ⟨hnodup, -, hoperations⟩ := h.transaction_eq
  have hmem : pendingPut purpose value ∈ transaction.operations := by
    rw [hoperations]
    simp
  constructor
  · rintro ⟨hoperation, hidentity⟩
    exact List.inj_on_of_nodup_map hnodup hoperation hmem hidentity
  · rintro rfl
    exact ⟨hmem, rfl⟩

lemma recoverIdentity_eq :
    PendingTransaction.recoverIdentity sha256 ⟨purpose, id, revision, planned⟩ value =
      .ok (transaction.id, transaction.operationDigest) := by
  unfold PendingTransaction.recoverIdentity
  rw [show prepareInternalTransaction sha256 _ _ _ = _ from h.prepared]
  rfl

end

end Journaled

/-- **Journal recovery reproduces the transaction**: what an accepted preparation stores under the
key of its purpose is one value, the value and the record determine each other, and the record
gives back the identity of the transaction, whose digest covers the value itself. -/
theorem journal_recovers_identity {sha256 : Hash} {revision : StoreRevision} {id : TransactionId}
    {purpose : Text} {callerOperations : List StoreOperation}
    {receiptOperations : Result (List StoreOperation)} {transaction : StoreTransaction}
    (h : prepareJournaledTransaction sha256 revision id purpose callerOperations receiptOperations =
      .ok transaction) :
    ∃ expanded value, receiptOperations = .ok expanded ∧
      (∀ operation, operation ∈ transaction.operations ∧
          operation.identity = .key pendingNamespace (pendingKey purpose) ↔
        operation = pendingPut purpose value) ∧
      PendingTransaction.decode value = .ok ⟨purpose, id, revision, callerOperations ++ expanded⟩ ∧
      PendingTransaction.encode ⟨purpose, id, revision, callerOperations ++ expanded⟩ = .ok value ∧
      PendingTransaction.recoverIdentity sha256
          ⟨purpose, id, revision, callerOperations ++ expanded⟩ value =
        .ok (transaction.id, transaction.operationDigest) := by
  obtain ⟨expanded, value, hexpanded, hjournaled⟩ := prepareJournaledTransaction_ok h
  exact ⟨expanded, value, hexpanded, fun _ => hjournaled.stores_iff, hjournaled.decode_value,
    hjournaled.encoded, hjournaled.recoverIdentity_eq⟩

def sampleRevision : StoreRevision := ⟨[1], by decide⟩

def sampleTransaction : TransactionId := ⟨"txn-000000000000000000000".toList, by decide +kernel⟩

def sampleJournal : Result StoreTransaction :=
  prepareJournaledTransaction zeroHash sampleRevision sampleTransaction "local-identity".toList
    [.put pendingNamespace [7] .absent [8]] (.ok [.put internalNamespace [9] .absent [1]])

theorem sample_journal_recovers : ∃ transaction value, sampleJournal = .ok transaction ∧
    PendingTransaction.recoverIdentity zeroHash
        ⟨"local-identity".toList, sampleTransaction, sampleRevision,
          [.put pendingNamespace [7] .absent [8], .put internalNamespace [9] .absent [1]]⟩ value =
      .ok (transaction.id, transaction.operationDigest) := by
  obtain ⟨transaction, htransaction⟩ : ∃ transaction, sampleJournal = .ok transaction :=
    Checked.exists_eq_ok (by decide +kernel)
  obtain ⟨expanded, value, hexpanded, -, -, -, hrecover⟩ := journal_recovers_identity htransaction
  obtain rfl := Except.ok.inj hexpanded
  exact ⟨transaction, value, htransaction, hrecover⟩

/-! ## Discovery -/

abbrev PendingRecords := OrdMap StoreKey StoreValue

variable (pending : PendingRecords)

def scanEntries (start : List UInt8) : List (StoreKey × StoreValue) :=
  pending.entries.filter fun entry => start.isPrefixOf entry.1

def discoverEntries (key : StoreKey) (purpose : Text) :
    Option (StoreValue × PendingTransaction) → List (StoreKey × StoreValue) →
      Result (Option (StoreValue × PendingTransaction))
  | found, [] => pure found
  | found, (entryKey, value) :: rest => do
      require (entryKey = key) (storageCorrupt "storage snapshot")
      require (found = none) (storageCorrupt "storage snapshot")
      let record ← Checked.replaceError (PendingTransaction.decode value)
        (storageCorrupt "storage snapshot")
      require (record.purpose = purpose) (storageCorrupt "storage snapshot")
      discoverEntries key purpose (some (value, record)) rest

def discoverPending (purpose : Text) : Result (Option (StoreValue × PendingTransaction)) := do
  validatePurpose purpose "pending transaction purpose"
  discoverEntries (pendingKey purpose) purpose none (scanEntries pending (pendingKey purpose))

def recoverPending (sha256 : Hash) (pending : PendingRecords) (purpose : Text) :
    Result (Option (TransactionId × Digest)) := do
  validatePurpose purpose "pending transaction purpose"
  match ← discoverPending pending purpose with
  | none => pure none
  | some (stored, record) => do pure (some (← record.recoverIdentity sha256 stored))

/-- The delete with which a cleanup removes a purpose's journal.  The receipt changes of the
cleanup are in another namespace. -/
def cleanupPending (sha256 : Hash) (pending : PendingRecords) (purpose : Text) :
    Result (Option StoreOperation) := do
  validatePurpose purpose "pending transaction purpose"
  match ← discoverPending pending purpose with
  | none => pure none
  | some (stored, record) => do
      let _ ← record.recoverIdentity sha256 stored
      pure (some (.delete pendingNamespace (pendingKey purpose) (digestStoreValue sha256 stored)))

lemma discoverPending_eq_ok {pending : PendingRecords} {purpose : Text}
    {found : Option (StoreValue × PendingTransaction)} :
    discoverPending pending purpose = .ok found ↔
      ValidPurpose purpose ∧
        (scanEntries pending (pendingKey purpose) = [] ∧ found = none ∨
          ∃ value record, scanEntries pending (pendingKey purpose) = [(pendingKey purpose, value)] ∧
            PendingTransaction.decode value = .ok record ∧ record.purpose = purpose ∧
            found = some (value, record)) := by
  rw [discoverPending, validatePurpose, require_bind_eq_ok]
  refine and_congr_right fun _ => ?_
  constructor
  · intro h
    cases hscan : scanEntries pending (pendingKey purpose) with
    | nil =>
      rw [hscan] at h
      exact Or.inl ⟨rfl, (Except.ok.inj h).symm⟩
    | cons entry rest =>
      obtain ⟨entryKey, value⟩ := entry
      rw [hscan] at h
      obtain ⟨hkey, h⟩ := require_bind_eq_ok.mp h
      obtain ⟨-, h⟩ := require_bind_eq_ok.mp h
      obtain ⟨record, hdecode, h⟩ := bind_eq_ok.mp h
      obtain ⟨hpurpose, h⟩ := require_bind_eq_ok.mp h
      -- a second entry finds the first one already there
      cases rest with
      | nil =>
        refine Or.inr ⟨value, record, by rw [hkey], ?_, hpurpose, (Except.ok.inj h).symm⟩
        exact Checked.replaceError_eq_ok.mp hdecode
      | cons second rest =>
        obtain ⟨-, h⟩ := require_bind_eq_ok.mp h
        obtain ⟨hnone, -⟩ := require_bind_eq_ok.mp h
        cases hnone
  · rintro (⟨hscan, rfl⟩ | ⟨value, record, hscan, hdecode, hpurpose, rfl⟩)
    · rw [hscan]
      rfl
    · rw [hscan, discoverEntries, require, if_pos rfl, require, if_pos rfl, hdecode]
      simp only [ok_bind, Checked.replaceError, require, if_pos hpurpose]
      rfl

end Radiata.Storage
