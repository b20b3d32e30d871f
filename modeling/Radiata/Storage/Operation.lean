import Radiata.Identity.Id
import Radiata.Lib.Hex
import Radiata.Protocol.Signature
import Radiata.Protocol.Tag

/-!
# Store transactions

A transaction is a list of conditional operations over records and receipts, each on a target of
its own, under a base revision.  Its digest commits to the base revision and to every operation,
with a length before each field of variable size.
-/

namespace Radiata.Storage

open Lib Protocol
open Reconcile (Hash)

abbrev StoreNamespace := QualifiedTag
abbrev StoreKey := List UInt8

abbrev StoreValue := List UInt8

structure StoreRevision where
  bytes : List UInt8
  nonempty : bytes ≠ []
deriving DecidableEq

def StoreRevision.new (bytes : List UInt8) : Result StoreRevision :=
  if h : bytes ≠ [] then .ok ⟨bytes, h⟩ else .error (.invalidInput "store revision")

lemma StoreRevision.new_bytes (revision : StoreRevision) : new revision.bytes = .ok revision :=
  dif_pos revision.nonempty

inductive StoreExpectation where
  | absent
  | exact (digest : Digest)
deriving DecidableEq

inductive StoreOperation where
  | check (ns : StoreNamespace) (key : StoreKey) (expected : StoreExpectation)
  | put (ns : StoreNamespace) (key : StoreKey) (expected : StoreExpectation) (value : StoreValue)
  | delete (ns : StoreNamespace) (key : StoreKey) (expected : Digest)
  | forgetReceipt (transaction : TransactionId) (expectedOperationDigest : Digest)
deriving DecidableEq

inductive StoreOperationIdentity where
  | key (ns : StoreNamespace) (key : StoreKey)
  | receipt (transaction : TransactionId)
deriving DecidableEq

def StoreOperation.identity : StoreOperation → StoreOperationIdentity
  | .check ns key _ => .key ns key
  | .put ns key _ _ => .key ns key
  | .delete ns key _ => .key ns key
  | .forgetReceipt transaction _ => .receipt transaction

/-! ## Digests -/

def storeValueDomain : List UInt8 := bytesOf "radiata/store-value/v1".toList ++ [0]

def storeTransactionDomain : List UInt8 := bytesOf "radiata/store-transaction/v1".toList ++ [0]

def lengthBytes (length : ℕ) : List UInt8 := Cbor.beBytes 16 length

def sizedBytes (bytes : List UInt8) : List UInt8 := lengthBytes bytes.length ++ bytes

variable (sha256 : Hash)

def digestStoreValue (value : StoreValue) : Digest :=
  sha256 (storeValueDomain ++ sizedBytes value)

def namespaceAndKeyBytes (ns : StoreNamespace) (key : StoreKey) : List UInt8 :=
  sizedBytes (bytesOf ns.value) ++ sizedBytes key

def expectationBytes : StoreExpectation → List UInt8
  | .absent => [0]
  | .exact digest => 1 :: digest.toList

def operationBytes : StoreOperation → List UInt8
  | .check ns key expected => 0 :: (namespaceAndKeyBytes ns key ++ expectationBytes expected)
  | .put ns key expected value =>
    1 :: (namespaceAndKeyBytes ns key ++ expectationBytes expected ++ sizedBytes value)
  | .delete ns key expected => 2 :: (namespaceAndKeyBytes ns key ++ expected.toList)
  | .forgetReceipt transaction digest => 3 ::
      (sizedBytes (bytesOf transaction.text) ++ digest.toList)

variable (baseRevision : StoreRevision) (operations : List StoreOperation)

def transactionBytes : List UInt8 :=
  storeTransactionDomain ++ sizedBytes baseRevision.bytes ++ lengthBytes operations.length ++
    operations.flatMap operationBytes

def digestStoreOperations : Digest :=
  sha256 (transactionBytes baseRevision operations)

/-! ## Transactions -/

structure StoreTransaction where
  id : TransactionId
  operationDigest : Digest
  baseRevision : StoreRevision
  operations : List StoreOperation
deriving DecidableEq

def StoreTransaction.new (id : TransactionId) (baseRevision : StoreRevision)
    (operations : List StoreOperation) : Result StoreTransaction := do
  require (operations ≠ []) (.invalidInput "storage transaction operations")
  require (operations.map StoreOperation.identity).Nodup
    (.invalidInput "storage transaction operations")
  pure ⟨id, digestStoreOperations sha256 baseRevision operations, baseRevision, operations⟩

lemma StoreTransaction.new_eq_ok {sha256 : Hash} {id : TransactionId} {baseRevision : StoreRevision}
    {operations : List StoreOperation} {transaction : StoreTransaction} :
    new sha256 id baseRevision operations = .ok transaction ↔
      operations ≠ [] ∧ (operations.map StoreOperation.identity).Nodup ∧
        transaction =
          ⟨id, digestStoreOperations sha256 baseRevision operations, baseRevision, operations⟩ := by
  rw [new, require_bind_eq_ok, require_bind_eq_ok]
  exact and_congr_right fun _ => and_congr_right fun _ =>
    ⟨fun h => (Except.ok.inj h).symm, fun h => h ▸ rfl⟩

/-! ## Families -/

def pendingNamespace : StoreNamespace :=
  ⟨"radiata.woooo.tech/metadata/v1/pending-transaction".toList, 18, 27, some 30, by decide +kernel⟩

def internalNamespace : StoreNamespace :=
  ⟨"radiata.woooo.tech/metadata/v1/receipt-internal".toList, 18, 27, some 30, by decide +kernel⟩

def usedIdTag : List UInt8 := 1 :: (bytesOf "used-id".toList ++ [0])

def usedIdKey (transaction : TransactionId) : StoreKey := usedIdTag ++ bytesOf transaction.text

def activeMarkerValue : StoreValue := []

def prepareInternalTransaction (id : TransactionId) (baseRevision : StoreRevision)
    (operations : List StoreOperation) : Result StoreTransaction :=
  StoreTransaction.new sha256 id baseRevision
    (operations ++ [.put internalNamespace (usedIdKey id) .absent activeMarkerValue])

def operationUsesReservedNamespace : StoreOperation → Bool
  | .check ns _ _ => ns.value == internalNamespace.value
  | .put ns _ _ _ => ns.value == internalNamespace.value
  | .delete ns _ _ => ns.value == internalNamespace.value
  | .forgetReceipt _ _ => true

/-! ## What a digest commits to -/

namespace StoreOperation

/-- The fields of variable size. -/
def fields : StoreOperation → List (List UInt8)
  | check ns key _ => [bytesOf ns.value, key]
  | put ns key _ value => [bytesOf ns.value, key, value]
  | delete ns key _ => [bytesOf ns.value, key]
  | forgetReceipt transaction _ => [bytesOf transaction.text]

end StoreOperation

/-- Every length is a `usize`, as the length of every slice and vector is. -/
structure Addressable (baseRevision : StoreRevision) (operations : List StoreOperation) : Prop where
  revision : baseRevision.bytes.length < 2 ^ 64
  count : operations.length < 2 ^ 64
  fields : ∀ operation ∈ operations, ∀ field ∈ operation.fields, field.length < 2 ^ 64

instance (baseRevision : StoreRevision) (operations : List StoreOperation) :
    Decidable (Addressable baseRevision operations) :=
  decidable_of_iff (baseRevision.bytes.length < 2 ^ 64 ∧ operations.length < 2 ^ 64 ∧
      ∀ operation ∈ operations, ∀ field ∈ operation.fields, field.length < 2 ^ 64)
    ⟨fun ⟨hrevision, hcount, hfields⟩ => ⟨hrevision, hcount, hfields⟩,
      fun h => ⟨h.revision, h.count, h.fields⟩⟩

section Commits

variable {x y : List UInt8}

lemma sizedBytes_append_inj {a b : List UInt8} (ha : a.length < 2 ^ 64) (hb : b.length < 2 ^ 64)
    (h : sizedBytes a ++ x = sizedBytes b ++ y) : a = b ∧ x = y :=
  sized_append_inj (ha.trans (by norm_num)) (hb.trans (by norm_num)) h

lemma digest_append_inj {a b : Digest} (h : a.toList ++ x = b.toList ++ y) : a = b ∧ x = y := by
  obtain ⟨hdigest, hrest⟩ := List.append_inj h (by simp)
  exact ⟨Vector.toList_inj.mp hdigest, hrest⟩

lemma namespaceAndKeyBytes_append_inj {ns ns' : StoreNamespace} {key key' : StoreKey}
    (hfields : ∀ field ∈ [bytesOf ns.value, key], field.length < 2 ^ 64)
    (hfields' : ∀ field ∈ [bytesOf ns'.value, key'], field.length < 2 ^ 64)
    (h : namespaceAndKeyBytes ns key ++ x = namespaceAndKeyBytes ns' key' ++ y) :
    ns = ns' ∧ key = key' ∧ x = y := by
  rw [namespaceAndKeyBytes, namespaceAndKeyBytes, List.append_assoc, List.append_assoc] at h
  simp only [List.forall_mem_cons] at hfields hfields'
  obtain ⟨hns, h⟩ := sizedBytes_append_inj hfields.1 hfields'.1 h
  obtain ⟨hkey, h⟩ := sizedBytes_append_inj hfields.2.1 hfields'.2.1 h
  exact ⟨QualifiedTag.ext_value (bytesOf_injective hns), hkey, h⟩

lemma expectationBytes_append_inj {a b : StoreExpectation}
    (h : expectationBytes a ++ x = expectationBytes b ++ y) : a = b ∧ x = y := by
  cases a with
  | absent =>
    cases b with
    | absent => exact ⟨rfl, (List.cons.inj h).2⟩
    | exact => simp [expectationBytes] at h
  | exact digest =>
    cases b with
    | absent => simp [expectationBytes] at h
    | exact digest' =>
      obtain ⟨rfl, hrest⟩ := digest_append_inj (List.cons.inj h).2
      exact ⟨rfl, hrest⟩

/-- The first byte tells the kind, and every field after it ends where its length says. -/
theorem operationBytes_append_inj {a b : StoreOperation}
    (ha : ∀ field ∈ a.fields, field.length < 2 ^ 64)
    (hb : ∀ field ∈ b.fields, field.length < 2 ^ 64)
    (h : operationBytes a ++ x = operationBytes b ++ y) : a = b ∧ x = y := by
  cases a with
  | check ns key expected =>
    cases b with
    | check ns' key' expected' =>
      simp only [operationBytes, List.cons_append, List.append_assoc, List.cons.injEq,
        true_and] at h
      obtain ⟨rfl, rfl, htail⟩ := namespaceAndKeyBytes_append_inj ha hb h
      obtain ⟨rfl, hrest⟩ := expectationBytes_append_inj htail
      exact ⟨rfl, hrest⟩
    | put | delete | forgetReceipt => simp [operationBytes] at h
  | put ns key expected value =>
    cases b with
    | put ns' key' expected' value' =>
      simp only [operationBytes, List.cons_append, List.append_assoc, List.cons.injEq,
        true_and] at h
      obtain ⟨rfl, rfl, htail⟩ := namespaceAndKeyBytes_append_inj
        (fun field hfield => ha field (List.mem_append_left [value] hfield))
        (fun field hfield => hb field (List.mem_append_left [value'] hfield)) h
      obtain ⟨rfl, hvalue⟩ := expectationBytes_append_inj htail
      obtain ⟨rfl, hrest⟩ := sizedBytes_append_inj
        (ha _ (by simp [StoreOperation.fields])) (hb _ (by simp [StoreOperation.fields])) hvalue
      exact ⟨rfl, hrest⟩
    | check | delete | forgetReceipt => simp [operationBytes] at h
  | delete ns key expected =>
    cases b with
    | delete ns' key' expected' =>
      simp only [operationBytes, List.cons_append, List.append_assoc, List.cons.injEq,
        true_and] at h
      obtain ⟨rfl, rfl, htail⟩ := namespaceAndKeyBytes_append_inj ha hb h
      obtain ⟨rfl, hrest⟩ := digest_append_inj htail
      exact ⟨rfl, hrest⟩
    | check | put | forgetReceipt => simp [operationBytes] at h
  | forgetReceipt transaction digest =>
    cases b with
    | forgetReceipt transaction' digest' =>
      simp only [operationBytes, List.cons_append, List.append_assoc, List.cons.injEq,
        true_and] at h
      obtain ⟨htext, htail⟩ :=
        sizedBytes_append_inj (ha _ List.mem_cons_self) (hb _ List.mem_cons_self) h
      obtain rfl := CanonicalId.text_injective (bytesOf_injective htext)
      obtain ⟨rfl, hrest⟩ := digest_append_inj htail
      exact ⟨rfl, hrest⟩
    | check | put | delete => simp [operationBytes] at h

end Commits

/-- **The digest commits to the whole transaction.**  Two base revisions and operation lists,
accepted as transactions or not, that hand the hash the same bytes are the same. -/
theorem transactionBytes_commit {baseRevision baseRevision' : StoreRevision}
    {operations operations' : List StoreOperation} (hfits : Addressable baseRevision operations)
    (hfits' : Addressable baseRevision' operations')
    (h : transactionBytes baseRevision operations = transactionBytes baseRevision' operations') :
    baseRevision = baseRevision' ∧ operations = operations' := by
  simp only [transactionBytes, List.append_assoc, List.append_cancel_left_eq] at h
  obtain ⟨hrevision, h⟩ := sizedBytes_append_inj hfits.revision hfits'.revision h
  obtain ⟨hlength, h⟩ := beBytes_append_inj (hfits.count.trans (by norm_num))
    (hfits'.count.trans (by norm_num)) h
  refine ⟨?_, flatMap_inj (fun _ _ _ _ => operationBytes_append_inj) hlength hfits.fields
    hfits'.fields h⟩
  cases baseRevision
  cases baseRevision'
  simpa using hrevision

def splitPut (key : StoreKey) (value : StoreValue) : List StoreOperation :=
  [.put pendingNamespace key .absent value]

/-- Bytes moved from a value to its key change what is hashed. -/
theorem transactionBytes_moved_byte :
    transactionBytes ⟨[0], by simp⟩ (splitPut [1] [2, 3]) ≠
      transactionBytes ⟨[0], by simp⟩ (splitPut [1, 2] [3]) := by
  intro h
  have hsame := (transactionBytes_commit (by decide +kernel) (by decide +kernel) h).2
  exact absurd hsame (by decide +kernel)

end Radiata.Storage
