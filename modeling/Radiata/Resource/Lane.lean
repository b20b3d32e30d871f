import Radiata.Reconcile.Plane
import Radiata.Resource.Store

/-!
# Retention and the resources lane

A removal stays in its register until its retention window has elapsed, or until the
removals exceed their cap and it is one of the oldest.  The sweep deletes what is due in
one transaction.  The same window is the lane's reclaim basis: an expired removal whose
key the store no longer holds is not evidence any more.
-/

namespace Radiata.Resource

open Lib Identity Reconcile Storage

variable (sha256 : Hash)

/-! ## Retention -/

def removalRetentionElapsed {sha256 : Hash} (record : ResourceRecordV1 sha256) (now : ℤ)
    (retention : ℕ) : Bool := decide ((retention : ℤ) ≤ now - record.timestamp)

def removalExpired (content : List UInt8) (now : ℤ) (retention : ℕ) : Bool :=
  (ResourceRecordV1.decode sha256 content).toOption.any fun record =>
    record.removed && removalRetentionElapsed record now retention

def reclaimed (keyPresent : Bool) (content : List UInt8) (now : ℤ) (retention : ℕ) : Bool :=
  !keyPresent && removalExpired sha256 content now retention

structure RemovalCandidate where
  stamped : ℤ
  key : List UInt8

def retentionSweepBound : ℕ := 4096

/-- What the sweep has gathered: the keys due, the number of fresh removals and the oldest of
them, in order of their stamps. -/
structure Sweep where
  due : List (List UInt8)
  freshTotal : ℕ
  oldest : List RemovalCandidate

namespace Sweep

def push (cap : ℕ) (oldest : List RemovalCandidate) (candidate : RemovalCandidate) :
    List RemovalCandidate :=
  (oldest.filter (fun c => c.stamped ≤ candidate.stamped) ++
    candidate :: oldest.filter fun c => candidate.stamped < c.stamped).take cap

def visit (now : ℤ) (retention cap : ℕ) (sweep : Sweep) (entry : List UInt8 × List UInt8) : Sweep :=
  match ResourceRecordV1.decode sha256 entry.2 with
  | .error _ => sweep
  | .ok record =>
    if !record.removed then sweep
    else if removalRetentionElapsed record now retention then
      { sweep with
        due := if sweep.due.length < retentionSweepBound then sweep.due ++ [entry.1]
          else sweep.due }
    else
      { sweep with
        freshTotal := sweep.freshTotal + 1
        oldest := push cap sweep.oldest ⟨record.timestamp, entry.1⟩ }

def deletes (cap : ℕ) (sweep : Sweep) : List (List UInt8) :=
  sweep.due ++ ((sweep.oldest.take
    (min (min (sweep.freshTotal - cap) sweep.oldest.length)
      (retentionSweepBound - sweep.due.length))).map RemovalCandidate.key)

end Sweep

variable (registers : Registers)

def deleteRows (keys : List (List UInt8)) : Registers :=
  registers.filter fun key _ => !keys.contains key

def sweepRemoved (now : ℤ) (retention cap : ℕ) (ended : CommitEnd) : Commit Registers ℕ :=
  let due := (registers.entries.foldl (Sweep.visit sha256 now retention cap) ⟨[], 0, []⟩).deletes
    cap
  if due.isEmpty then .none registers (.ok 0)
  else
    match ended with
    | .committed => ⟨deleteRows registers due, [.resourceRecord], .ok due.length⟩
    | .conflict | .aborted => .none registers (.ok 0)
    | .unknown applied => ⟨if applied then deleteRows registers due else registers, [], .ok 0⟩

/-! ## The lane -/

def pageMaxItems : ℕ := 64

def scanRows : List Row :=
  (registers.entries.filter fun entry => (ResourceRecordV1.decode sha256 entry.2).isOk).map
    fun entry => ⟨entry.1, entry.2⟩

def readRecordRow (row : Row) : Option (ResourceRecordV1 sha256) :=
  match ResourceRecordV1.decode sha256 row.content with
  | .ok record => if row.key = recordKey record.name then some record else none
  | .error _ => none

def applyRows (rows : List Row) : Commit Registers (List Row) :=
  let pages := chunks pageMaxItems (rows.filterMap (readRecordRow sha256))
  let commit := commitEach (fun regs page => commitPageBatch regs page .committed .committed)
    registers pages
  ⟨commit.store, commit.noted,
    commit.answer.map fun _ => rows.filter fun row => (readRecordRow sha256 row).isNone⟩

/-! ## Notes -/

variable {sha256}

variable (registers : Registers)

lemma commitExpectedRecord_notes (record : ResourceRecordV1 sha256)
    (expected : Option ResourceVersion) : NotesChanges .resourceRecord registers
      (commitExpectedRecord registers record expected .committed) := by
  rcases commitExpectedRecord_cases registers record expected .committed with
    ⟨existing, -, hcommit, -⟩ | ⟨-, hcommit⟩ | ⟨-, hcommit⟩
  · rw [hcommit]
    exact .none
  · rw [hcommit]
    exact .none
  · rw [hcommit]
    unfold commitPut
    cases record.encode with
    | error e => exact .none
    | ok bytes => exact fun _ => List.mem_singleton_self _

lemma commitPageBatch_notes (records : List (ResourceRecordV1 sha256)) :
    NotesChanges .resourceRecord registers
      (commitPageBatch registers records .committed .committed) := by
  unfold commitPageBatch
  cases pagePuts registers (contest records) with
  | error e => exact .none
  | ok puts =>
    cases puts with
    | nil => exact .none
    | cons put puts => exact fun _ => List.mem_singleton_self _

lemma sweepRemoved_notes (now : ℤ) (retention cap : ℕ) : NotesChanges .resourceRecord registers
      (sweepRemoved sha256 registers now retention cap .committed) := by
  unfold sweepRemoved
  dsimp only
  split_ifs
  · exact .none
  · exact fun _ => List.mem_singleton_self _

lemma applyRows_notes (rows : List Row) :
    NotesChanges .resourceRecord registers (applyRows sha256 registers rows) :=
  commitEach_notes commitPageBatch_notes registers _

end Radiata.Resource
