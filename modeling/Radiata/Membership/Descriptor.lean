import Radiata.Membership.Node
import Radiata.Resource.Lane

/-!
# The descriptor register

One row per node, replaced only by a strictly higher revision.  The register reads three
things of a descriptor: its node, its revision and its encoding; everything here is over
any format that has them.
-/

namespace Radiata.Membership

open Lib Identity Reconcile Storage Resource

structure DescriptorFormat where
  Descriptor : Type
  node : Descriptor → NodeId
  revision : Descriptor → UInt64
  encode : Descriptor → Result (List UInt8)
  decode : List UInt8 → Result Descriptor

abbrev DescriptorRows := OrdMap (List UInt8) (List UInt8)

variable {format : DescriptorFormat}

namespace DescriptorFormat

section

variable (format : DescriptorFormat)

def stored (rows : DescriptorRows) (node : NodeId) : Option format.Descriptor :=
  (rows.get? (idBytes node)).bind fun bytes => (format.decode bytes).toOption

variable (bound : NodeId → Bool) (rows : DescriptorRows) (descriptor : format.Descriptor)

/-- Why a descriptor is not stored, if it is not.  The binding of its node is read only for a
first row above revision one. -/
def skipReason : Option String :=
  match format.stored rows (format.node descriptor) with
  | some existing =>
    if format.revision descriptor ≤ format.revision existing then some "node descriptor revision"
    else none
  | none =>
    if format.revision descriptor = 0 ∨
        1 < format.revision descriptor ∧ bound (format.node descriptor) = false then
      some "node descriptor revision"
    else none

def store (ended : CommitEnd) : Commit DescriptorRows Unit :=
  match format.skipReason bound rows descriptor with
  | some reason => .none rows (.error (.conflict reason))
  | none =>
    match format.encode descriptor, ended with
    | .error e, _ => .none rows (.error e)
    | .ok bytes, .committed =>
      ⟨rows.insert (idBytes (format.node descriptor)) bytes, [.nodeDescriptor], .ok ()⟩
    | .ok _, .conflict | .ok _, .aborted =>
      .none rows (.error (.conflict "node descriptor revision"))
    | .ok bytes, .unknown applied =>
      ⟨if applied then rows.insert (idBytes (format.node descriptor)) bytes else rows, [],
        .error commitUnknown⟩

end

def pagePuts (format : DescriptorFormat) (bound : NodeId → Bool) (rows : DescriptorRows) :
    List format.Descriptor → Result (List (NodeId × List UInt8) × List NodeId)
  | [] => .ok ([], [])
  | descriptor :: rest =>
    match format.skipReason bound rows descriptor with
    | some _ => do
        let (puts, skipped) ← format.pagePuts bound rows rest
        pure (puts, format.node descriptor :: skipped)
    | none => do
        let bytes ← format.encode descriptor
        let (puts, skipped) ← format.pagePuts bound rows rest
        pure ((format.node descriptor, bytes) :: puts, skipped)

section

variable (format : DescriptorFormat) (bound : NodeId → Bool) (rows : DescriptorRows)

/-- Applies one page, and answers with the nodes it skipped.  A commit that landed nothing is
tried once more. -/
def applyBatch (page : List format.Descriptor) (ended retried : CommitEnd) :
    Commit DescriptorRows (List NodeId) :=
  match format.pagePuts bound rows page with
  | .error e => .none rows (.error e)
  | .ok ([], skipped) => .none rows (.ok skipped)
  | .ok (puts, skipped) =>
    let next := puts.foldl (fun rows put => rows.insert (idBytes put.1) put.2) rows
    let last := match ended with
      | .conflict | .aborted => retried
      | ended => ended
    match last with
    | .committed => ⟨next, [.nodeDescriptor], .ok skipped⟩
    | .conflict | .aborted => .none rows (.error (.conflict "membership page"))
    | .unknown applied => ⟨if applied then next else rows, [], .error commitUnknown⟩

/-! ## The lane -/

def scanRows : List Row :=
  (rows.entries.filter fun entry => (format.decode entry.2).isOk).map
    fun entry => ⟨entry.1, entry.2⟩

def contend
    (contest : List (Row × format.Descriptor) × List Row) (entry : Row × format.Descriptor) :
    List (Row × format.Descriptor) × List Row :=
  match contest.1.find? fun e => format.node e.2 = format.node entry.2 with
  | none => (contest.1 ++ [entry], contest.2)
  | some standing =>
    if format.revision entry.2 ≤ format.revision standing.2 then (contest.1, contest.2 ++ [entry.1])
    else
      (contest.1.map fun e => if format.node e.2 = format.node entry.2 then entry else e,
        contest.2 ++ [standing.1])

def applyRows (batch : List Row) : Commit DescriptorRows (List Row) :=
  let read (row : Row) := decodeIdentified format.decode (fun d => idBytes (format.node d)) row
  let decoded := batch.filterMap fun row => (read row).map (row, ·)
  let (winners, losers) := decoded.foldl format.contend ([], [])
  let commit :=
    commitEach (fun rows page => format.applyBatch bound rows page .committed .committed)
    rows (chunks pageMaxItems (winners.map Prod.snd))
  ⟨commit.store, commit.noted, commit.answer.map fun skipped =>
    batch.filter (fun row => (read row).isNone) ++ losers ++
      (winners.filter fun e => skipped.flatten.any fun node => idBytes node = e.1.key).map Prod.fst⟩

end

/-! ## Notes -/

variable (bound : NodeId → Bool)

section

variable (rows : DescriptorRows)
include rows

lemma store_notes (descriptor : format.Descriptor) :
    NotesChanges .nodeDescriptor rows (format.store bound rows descriptor .committed) := by
  unfold store
  split
  · exact .none
  · cases format.encode descriptor with
    | error e => exact .none
    | ok bytes => exact fun _ => List.mem_singleton_self _

lemma applyBatch_notes (page : List format.Descriptor) : NotesChanges .nodeDescriptor rows
      (format.applyBatch bound rows page .committed .committed) := by
  unfold applyBatch
  cases format.pagePuts bound rows page with
  | error e => exact .none
  | ok decided =>
    obtain ⟨puts, skipped⟩ := decided
    cases puts with
    | nil => exact .none
    | cons put puts => exact fun _ => List.mem_singleton_self _

lemma applyRows_notes (batch : List Row) :
    NotesChanges .nodeDescriptor rows (format.applyRows bound rows batch) :=
  commitEach_notes (applyBatch_notes bound) rows _

end

end DescriptorFormat

end Radiata.Membership
