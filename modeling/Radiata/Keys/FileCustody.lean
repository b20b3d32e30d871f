import Radiata.Identity.Record
import Radiata.Lib.Hex

/-!
# File custody of one key

The file key store keeps the seed of one operation id in a key file, beside an intent marker.
Any number of calls run against the two files at once.  Every file-system call of the source
is one step here, and between two steps of a call anything may happen: steps of other calls,
the death of a call, or a loss of power.

A file is an inode.  The name of the key file refers to at most one, and a call that opened
a file keeps its inode when the name is removed.  What a loss of power may leave is told from
the entries the name had since the last directory barrier and from the files not yet synced.
-/

namespace Radiata.Keys

open Lib Identity

abbrev Seed := FixedBytes 32

def createRestartLimit : ℕ := 4

inductive IntentMarker where
  | mint
  | delete
deriving DecidableEq

def IntentMarker.fromBytes (bytes : List UInt8) : IntentMarker :=
  if bytes = bytesOf "radiata/key-intent/v1 delete\n".toList then .delete else .mint

inductive LoadedArtifact where
  | missing
  | empty
  | complete (secret : Seed)
  | torn

inductive KeyCreateState where
  | present (key : PublicKey)
  | absent
  | unknown
deriving DecidableEq

inductive Answer where
  | created (state : Result KeyCreateState)
  | loaded (key : Result PublicKey)
deriving DecidableEq

/-! ## The directory -/

/-- The directory: the inode under the key file's name, the entries that name had since the
last barrier, the contents of every inode and whether they are synced, and the marker. -/
structure Disk where
  key : Option ℕ
  unsynced : List (Option ℕ)
  files : ℕ → List UInt8
  synced : ℕ → Bool
  next : ℕ
  intent : Option IntentMarker

def overwrite (file : List UInt8) (offset : ℕ) (bytes : List UInt8) : List UInt8 :=
  file.take offset ++ List.replicate (offset - file.length) 0 ++ bytes ++
    file.drop (offset + bytes.length)

namespace Disk

def boot (contents : Option (List UInt8)) (intent : Option (List UInt8)) : Disk where
  key := contents.map fun _ => 0
  unsynced := []
  files := fun i => if i = 0 then contents.getD [] else []
  synced := fun _ => true
  next := 1
  intent := intent.map IntentMarker.fromBytes

variable (d : Disk)

def create : Disk :=
  { d with
    key := some d.next
    unsynced := d.key :: d.unsynced
    files := Function.update d.files d.next []
    synced := Function.update d.synced d.next false
    next := d.next + 1 }

def write (inode offset : ℕ) (bytes : List UInt8) : Disk :=
  { d with
    files := Function.update d.files inode (overwrite (d.files inode) offset bytes)
    synced := Function.update d.synced inode false }

def sync (inode : ℕ) : Disk :=
  { d with synced := Function.update d.synced inode true }

def barrier : Disk := { d with unsynced := [] }

def removeKey : Disk :=
  match d.key with
  | none => d
  | some _ => { d with key := none, unsynced := d.key :: d.unsynced }

def setIntent (intent : Option IntentMarker) : Disk := { d with intent := intent }

/-- What power loss can leave under the key file's name: any entry since the last barrier, with
its contents if they were synced and with any contents if not. -/
def MayLeave (contents : Option (List UInt8)) : Prop :=
  ∃ entry ∈ d.key :: d.unsynced, contents.isSome = entry.isSome ∧
    ∀ i ∈ entry, d.synced i = true → contents = some (d.files i)

instance (d : Disk) (contents : Option (List UInt8)) : Decidable (d.MayLeave contents) :=
  inferInstanceAs (Decidable (∃ entry ∈ d.key :: d.unsynced, contents.isSome = entry.isSome ∧
    ∀ i ∈ entry, d.synced i = true → contents = some (d.files i)))

end Disk

/-! ## One call -/

/-- What a read of the key file is for.  A create counts its restarts, and `fill` is its wait
for an empty file to grow. -/
inductive Goal where
  | create (restarts : ℕ)
  | fill (restarts : ℕ)
  | reconcile
  | publicKey
  | sign
deriving DecidableEq

def Goal.context : Goal → String
  | .create _ | .fill _ => "key create"
  | .reconcile => "key reconcile"
  | .publicKey => "key public key"
  | .sign => "key sign"

inductive Pc where
  | stat (goal : Goal)
  | opening (goal : Goal)
  | reading (goal : Goal) (inode : ℕ)
  | clearIntent (restarts : ℕ)
  | markIntent (restarts : ℕ)
  | markBarrier (restarts : ℕ)
  | mint (restarts : ℕ)
  | filling (inode : ℕ) (secret : Seed) (written : ℕ)
  | syncKey (inode : ℕ) (secret : Seed)
  | wonBarrier (secret : Seed)
  | wonDiscard (secret : Seed)
  | wonLast (secret : Seed)
  | takeover (restarts : ℕ)
  | takeoverBarrier (restarts : ℕ)
  | sealOpen (context : String) (secret : Seed)
  | sealSync (inode : ℕ) (secret : Seed)
  | sealBarrier (secret : Seed)
  | sealIntent (secret : Seed)
  | sealDiscard (secret : Seed)
  | sealLast (secret : Seed)

/-- What the environment decides at a step: the fresh seed, whether the wait for an empty file
is over, and how many bytes a write takes. -/
structure Choice where
  seed : Seed
  expired : Bool
  bytes : ℕ

inductive Outcome where
  | next (pc : Pc)
  | answer (value : Answer)

section Call

variable (publicKey : Seed → PublicKey)

def present (secret : Seed) : Outcome := .answer (.created (.ok (.present (publicKey secret))))

def Goal.fail (goal : Goal) (kind : ErrorKind) : Outcome :=
  match goal with
  | .create _ | .fill _ | .reconcile => .answer (.created (.error ⟨kind, goal.context⟩))
  | .publicKey | .sign => .answer (.loaded (.error ⟨kind, goal.context⟩))

def Goal.settle (expired : Bool) : Goal → LoadedArtifact → Outcome
  | .create restarts, .missing =>
    if createRestartLimit < restarts + 1 then .answer (.created (.ok .unknown))
    else .next (.clearIntent (restarts + 1))
  | .create restarts, .empty =>
    if createRestartLimit < restarts + 1 then .answer (.created (.ok .unknown))
    else .next (.stat (.fill (restarts + 1)))
  -- `await_fill` polls an empty file until its deadline
  | .fill restarts, .empty =>
    if expired then .next (.takeover restarts) else .next (.stat (.fill restarts))
  | .fill restarts, .missing => .next (.takeover restarts)
  | .reconcile, .missing | .reconcile, .empty => .answer (.created (.ok .absent))
  | .create _, .torn | .fill _, .torn | .reconcile, .torn => .answer (.created (.ok .unknown))
  | .create _, .complete secret | .fill _, .complete secret =>
    .next (.sealOpen "key create" secret)
  | .reconcile, .complete secret => .next (.sealOpen "key reconcile" secret)
  | .publicKey, .complete secret | .sign, .complete secret =>
    .answer (.loaded (.ok (publicKey secret)))
  | .publicKey, _ => Goal.publicKey.fail .storageCorrupt
  | .sign, _ => Goal.sign.fail .storageCorrupt

/-- One step of a call on the file provider: what it does to the disk, and how it goes on. -/
def act (c : Choice) (d : Disk) : Pc → Disk × Outcome
  | .stat goal =>
    match d.key with
    | none => (d, goal.settle publicKey c.expired .missing)
    | some i =>
      if (d.files i).length = 0 then (d, goal.settle publicKey c.expired .empty)
      else if (d.files i).length ≠ 32 then (d, goal.settle publicKey c.expired .torn)
      else (d, .next (.opening goal))
  | .opening goal =>
    match d.key with
    | none => (d, goal.fail .io)
    | some i => (d, .next (.reading goal i))
  | .reading goal i =>
    if h : 32 ≤ (d.files i).length then
      (d, goal.settle publicKey c.expired
        (.complete ⟨(d.files i).take 32, List.length_take_of_le h⟩))
    else (d, goal.fail .io)
  | .clearIntent restarts => (d.setIntent none, .next (.markIntent restarts))
  | .markIntent restarts => (d.setIntent (some .mint), .next (.markBarrier restarts))
  | .markBarrier restarts => (d.barrier, .next (.mint restarts))
  | .mint restarts =>
    match d.key with
    | none => (d.create, .next (.filling d.next c.seed 0))
    | some _ => (d, .next (.stat (.create restarts)))
  | .filling i secret written =>
    let bytes := (secret.1.drop written).take c.bytes
    (d.write i written bytes,
      if written + bytes.length = 32 then .next (.syncKey i secret)
      else .next (.filling i secret (written + bytes.length)))
  | .syncKey i secret => (d.sync i, .next (.wonBarrier secret))
  | .wonBarrier secret => (d.barrier, .next (.wonDiscard secret))
  | .wonDiscard secret =>
    if d.intent.isSome then (d.setIntent none, .next (.wonLast secret))
    else (d, present publicKey secret)
  | .wonLast secret => (d.barrier, present publicKey secret)
  | .takeover restarts => (d.removeKey, .next (.takeoverBarrier restarts))
  | .takeoverBarrier restarts => (d.barrier, .next (.stat (.create restarts)))
  | .sealOpen context secret =>
    match d.key with
    | none => (d, .answer (.created (.error ⟨.io, context⟩)))
    | some i => (d, .next (.sealSync i secret))
  | .sealSync i secret => (d.sync i, .next (.sealBarrier secret))
  | .sealBarrier secret => (d.barrier, .next (.sealIntent secret))
  | .sealIntent secret =>
    if d.intent = some .mint then (d, .next (.sealDiscard secret))
    else (d, present publicKey secret)
  | .sealDiscard secret =>
    if d.intent.isSome then (d.setIntent none, .next (.sealLast secret))
    else (d, present publicKey secret)
  | .sealLast secret => (d.barrier, present publicKey secret)

end Call

/-! ## Calls at once -/

inductive Call where
  | create
  | reconcile
  | publicKey
  | sign

def Call.goal : Call → Goal
  | .create => .create 0
  | .reconcile => .reconcile
  | .publicKey => .publicKey
  | .sign => .sign

structure Task where
  promised : Option PublicKey
  pc : Pc

/-- The directory, the running calls, and the answers given so far, the latest first, each with
the key that had been reported present when its call started. -/
structure Custody where
  disk : Disk
  tasks : ℕ → Option Task
  answers : List (Option PublicKey × Answer)

inductive Action where
  | start (id : ℕ) (call : Call)
  | act (id : ℕ) (choice : Choice)
  | crash (id : ℕ)
  | losePower (contents intent : Option (List UInt8))

namespace Custody

def boot (contents intent : Option (List UInt8)) : Custody :=
  ⟨.boot contents intent, fun _ => none, []⟩

def reported (s : Custody) : Option PublicKey :=
  s.answers.findSome? fun
    | (_, .created (.ok (.present key))) => some key
    | _ => none

def settle (s : Custody) (id : ℕ) (task : Task) : Disk × Outcome → Custody
  | (disk, .next pc) =>
    { s with disk := disk, tasks := Function.update s.tasks id (some { task with pc := pc }) }
  | (disk, .answer value) =>
    ⟨disk, Function.update s.tasks id none, (task.promised, value) :: s.answers⟩

def step (publicKey : Seed → PublicKey) (s : Custody) : Action → Custody
  | .start id call =>
    match s.tasks id with
    | some _ => s
    | none =>
      { s with tasks := Function.update s.tasks id (some ⟨s.reported, .stat call.goal⟩) }
  | .act id choice =>
    match s.tasks id with
    | none => s
    | some task => s.settle id task (Keys.act publicKey choice s.disk task.pc)
  | .crash id => { s with tasks := Function.update s.tasks id none }
  | .losePower contents intent =>
    if s.disk.MayLeave contents then ⟨.boot contents intent, fun _ => none, s.answers⟩ else s

end Custody

end Radiata.Keys
