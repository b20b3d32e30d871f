import Radiata.Keys.FileCustody
import Radiata.Storage.Operation

/-!
# Custody of one key in the metadata store

The metadata key store keeps the seed of one handle in a row of the store and the signing key
in a cache in memory.  Its calls wait for the store: for a snapshot, for a row of it, for a
commit and for the reconciliation of an undecided one.  Between two waits a call runs alone,
so one step here is what a call does from one wait to the next.

A commit takes effect in the store when the store applies it.  The call learns of it at its
next step, and whatever happens in between happens before the call goes on.
-/

namespace Radiata.Keys.Metadata

open Identity Storage Protocol
open Reconcile (Hash)

def commitAttempts : ℕ := 8

inductive KeyDeleteState where
  | present
  | absent
  | unknown
deriving DecidableEq

/-- What a call returns: the state of a create or a delete, or the key that was loaded or
signed with. -/
inductive Answer where
  | created (state : Result KeyCreateState)
  | loaded (key : Result PublicKey)
  | deleted (state : Result KeyDeleteState)
deriving DecidableEq

inductive Op where
  | create (left : ℕ)
  | reconcileCreate
  | publicKey
  | sign
  | delete (left : ℕ)
  | reconcileDelete
deriving DecidableEq

def Op.failed (op : Op) (error : Error) : Answer :=
  match op with
  | .create _ | .reconcileCreate => .created (.error error)
  | .publicKey | .sign => .loaded (.error error)
  | .delete _ | .reconcileDelete => .deleted (.error error)

/-! ## The store -/

structure Store where
  revision : ℕ
  row : Option StoreValue
deriving DecidableEq

inductive Change where
  | put (secret : Seed)
  | remove (expected : Digest)
deriving DecidableEq

inductive CommitOutcome where
  | committed
  | aborted
  | conflict
  | unknown
deriving DecidableEq

def Change.conditionMatches (sha256 : Hash) (row : Option StoreValue) : Change → Bool
  | .put _ => row.isNone
  | .remove expected => row.any fun value => digestStoreValue sha256 value = expected

def Store.commitPrecheck (sha256 : Hash) (store : Store) (base : ℕ) (change : Change) : Bool :=
  base == store.revision && change.conditionMatches sha256 store.row

def Store.apply (store : Store) : Change → Store
  | .put secret => ⟨store.revision + 1, some secret.1⟩
  | .remove _ => ⟨store.revision + 1, none⟩

/-! ## One call -/

def seedFromRow (value : StoreValue) : Option Seed :=
  if h : value.length = 32 then some ⟨value, h⟩ else none

inductive Pc where
  | lookup (op : Op)
  | snapshot (op : Op)
  | get (op : Op) (revision : ℕ) (row : Option StoreValue)
  | commit (op : Op) (base : ℕ) (change : Change)
  | settled (op : Op) (change : Change) (outcome : Result CommitOutcome) (applied : Bool)
  | reconcile (op : Op) (change : Change) (applied : Bool)

def Pc.op : Pc → Op
  | .lookup op | .snapshot op | .get op _ _ | .commit op _ _ | .settled op _ _ _
  | .reconcile op _ _ => op

/-- What the environment decides at a step: the fresh seed, whether the store fails, whether a
commit that can be applied is, and whether its outcome is left undecided. -/
structure Choice where
  seed : Seed
  fault : Option Error
  lands : Bool
  undecided : Bool

inductive Outcome where
  | next (pc : Pc)
  | answer (value : Answer)

section Call

variable (sha256 : Hash) (publicKey : Seed → PublicKey)

def present (secret : Seed) : Outcome := .answer (.created (.ok (.present (publicKey secret))))

def custodyCorrupt (op : Op) (context : String) : Outcome :=
  .answer (op.failed ⟨.storageCorrupt, context⟩)

def loadRow (op : Op) (context : String) (cache : Option Seed) :
    Option StoreValue → Option Seed × Outcome
  | none => (cache, custodyCorrupt op context)
  | some value =>
    match seedFromRow value with
    | none => (cache, custodyCorrupt op context)
    | some secret => (some secret, .answer (.loaded (.ok (publicKey secret))))

def Op.read (c : Choice) (revision : ℕ) (cache : Option Seed) (row : Option StoreValue) :
    Op → Option Seed × Outcome
  | .create left =>
    match row with
    | none => (cache, .next (.commit (.create left) revision (.put c.seed)))
    | some value =>
      match seedFromRow value with
      | none => (cache, .answer (.created (.ok .unknown)))
      | some secret => (cache, present publicKey secret)
  | .reconcileCreate =>
    match row with
    | none => (cache, .answer (.created (.ok .absent)))
    | some value =>
      match seedFromRow value with
      | none => (cache, .answer (.created (.ok .unknown)))
      | some secret => (cache, present publicKey secret)
  | .publicKey => loadRow publicKey .publicKey "key public key" cache row
  | .sign => loadRow publicKey .sign "key sign" cache row
  | .delete left =>
    match row with
    | none => (none, .answer (.deleted (.ok .absent)))
    | some value =>
      (cache, .next (.commit (.delete left) revision
        (.remove (digestStoreValue sha256 value))))
  | .reconcileDelete =>
    match row with
    | none => (none, .answer (.deleted (.ok .absent)))
    | some _ => (cache, .answer (.deleted (.ok .present)))

def Op.retry : Op → Outcome
  | .create (left + 1) => .next (.snapshot (.create left))
  | .create 0 => .answer (.created (.error (.conflict "key seed create")))
  | .delete (left + 1) => .next (.snapshot (.delete left))
  | .delete 0 => .answer (.deleted (.error (.conflict "key seed delete")))
  | op => .next (.snapshot op)

def Op.afterCommit (op : Op) (change : Change) (cache : Option Seed) :
    CommitOutcome → Option Seed × Outcome
  | .committed =>
    match change with
    | .put secret => (some secret, present publicKey secret)
    | .remove _ => (none, .answer (.deleted (.ok .present)))
  | .aborted | .conflict => (cache, op.retry)
  | .unknown =>
    match change with
    | .put _ => (cache, .answer (.created (.ok .unknown)))
    | .remove _ => (cache, .answer (.deleted (.ok .unknown)))

/-- One step of a call on the metadata provider: what it does to the store and the cache, and how it
goes on. -/
def act (c : Choice) (store : Store) (cache : Option Seed) : Pc → Store × Option Seed × Outcome
  | .lookup op =>
    match cache with
    | some secret => (store, cache, .answer (.loaded (.ok (publicKey secret))))
    | none => (store, cache, .next (.snapshot op))
  | .snapshot op =>
    match c.fault with
    | some error => (store, cache, .answer (op.failed error))
    | none => (store, cache, .next (.get op store.revision store.row))
  | .get op revision row =>
    match c.fault with
    | some error => (store, cache, .answer (op.failed error))
    | none => (store, op.read sha256 publicKey c revision cache row)
  | .commit op base change =>
    let passes := store.commitPrecheck sha256 base change
    let applied := passes && c.lands
    let outcome : Result CommitOutcome :=
      match c.fault with
      | some error => .error error
      | none =>
        if c.undecided then .ok .unknown
        else if applied then .ok .committed
        else if passes then .ok .aborted
        else .ok .conflict
    (if applied then store.apply change else store, cache,
      .next (.settled op change outcome applied))
  | .settled op change outcome applied =>
    match outcome with
    | .error error => (store, cache, .answer (op.failed error))
    | .ok .unknown => (store, cache, .next (.reconcile op change applied))
    | .ok outcome => (store, op.afterCommit publicKey change cache outcome)
  | .reconcile op change applied =>
    match c.fault with
    | some error => (store, cache, .answer (op.failed error))
    | none =>
      (store, op.afterCommit publicKey change cache
        (if applied then .committed else .aborted))

end Call

/-! ## Calls at once -/

inductive Call where
  | create
  | reconcileCreate
  | publicKey
  | sign
  | delete
  | reconcileDelete

def Call.pc : Call → Pc
  | .create => .snapshot (.create (commitAttempts - 1))
  | .reconcileCreate => .snapshot .reconcileCreate
  | .publicKey => .lookup .publicKey
  | .sign => .lookup .sign
  | .delete => .snapshot (.delete (commitAttempts - 1))
  | .reconcileDelete => .snapshot .reconcileDelete

/-- A running call; `shut` is the number of creations so far, when the call started after a
delete had returned and before a later create committed. -/
structure Task where
  shut : Option ℕ
  pc : Pc

structure Logged where
  shut : Option ℕ
  creations : ℕ
  deletions : ℕ
  answer : Answer
deriving DecidableEq

/-- The store, the cache and the running calls.  What follows them is read by no step: the
creations and deletions of the row so far, whether a delete has returned since the row went
absent, and the answers, the latest first. -/
structure Custody where
  store : Store
  cache : Option Seed
  tasks : ℕ → Option Task
  creations : ℕ
  deletions : ℕ
  closed : Bool
  answers : List Logged

inductive Action where
  | start (id : ℕ) (call : Call)
  | act (id : ℕ) (choice : Choice)
  | traffic

def Op.returnsDeleted : Op → Answer → Bool
  | .delete _, .deleted (.ok .present) | .delete _, .deleted (.ok .absent) => true
  | _, _ => false

namespace Custody

def opened (row : Option StoreValue) : Custody :=
  ⟨⟨0, row⟩, none, fun _ => none, 0, 0, false, []⟩

variable (s : Custody)

def startedShut : Option ℕ := if s.closed then some s.creations else none

def replace (store : Store) (cache : Option Seed) : Custody :=
  let created := s.store.row.isNone && store.row.isSome
  let deleted := s.store.row.isSome && store.row.isNone
  { s with
    store := store
    cache := cache
    creations := if created then s.creations + 1 else s.creations
    deletions := if deleted then s.deletions + 1 else s.deletions
    closed := s.closed && !created }

def settle (id : ℕ) (task : Task) : Store × Option Seed × Outcome → Custody
  | (store, cache, .next pc) =>
    let after := s.replace store cache
    { after with tasks := Function.update s.tasks id (some { task with pc := pc }) }
  | (store, cache, .answer value) =>
    let after := s.replace store cache
    { after with
      tasks := Function.update s.tasks id none
      closed := after.closed || (task.pc.op.returnsDeleted value && store.row.isNone)
      answers := ⟨task.shut, after.creations, after.deletions, value⟩ :: s.answers }

def step (sha256 : Hash) (publicKey : Seed → PublicKey) (s : Custody) : Action → Custody
  | .start id call =>
    match s.tasks id with
    | some _ => s
    | none => { s with tasks := Function.update s.tasks id (some ⟨s.startedShut, call.pc⟩) }
  | .act id choice =>
    match s.tasks id with
    | none => s
    | some task =>
      s.settle id task (Metadata.act sha256 publicKey choice s.store s.cache task.pc)
  | .traffic => { s with store := { s.store with revision := s.store.revision + 1 } }

def run (sha256 : Hash) (publicKey : Seed → PublicKey) (s : Custody) (actions : List Action) :
    Custody :=
  actions.foldl (step sha256 publicKey) s

end Custody

end Radiata.Keys.Metadata
