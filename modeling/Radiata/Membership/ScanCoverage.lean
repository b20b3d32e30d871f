import Radiata.Membership.Descriptor
import Radiata.Membership.Revival
import Radiata.Reconcile.ScanPlan
import Radiata.Resource.Convergence

/-!
# Which writes reach the next scan

A node with all four lanes, and the writes that its own operations commit: resource puts,
removals, pages and sweeps, descriptors, terminal records, revocations and their purges,
and checkpoints.  Every one of them notes what it changed, except the resource removal,
which shares the commit of the put but not its note.

So a lane that changed since its last scan is planned at the next tick, unless it is the
resources lane and only removals changed it.
-/

namespace Radiata.Membership

open Lib Identity Reconcile Storage Resource

structure Catalog where
  descriptors : DescriptorRows
  resources : Registers

abbrev CatalogNode := Node Catalog

namespace Node

variable (node : CatalogNode)

def landResources {α : Type} (commit : Commit Registers α) : CatalogNode :=
  { node with
    rest := { node.rest with resources := commit.store }
    notes := commit.noted.foldl WriteNotes.noteLocalWriteIn node.notes }

def landDescriptors {α : Type} (commit : Commit DescriptorRows α) : CatalogNode :=
  { node with
    rest := { node.rest with descriptors := commit.store }
    notes := commit.noted.foldl WriteNotes.noteLocalWriteIn node.notes }

def isBound (peer : NodeId) : Bool := (node.table.store.bindings peer).isSome

end Node

/-! ## The lanes -/

section Lanes

variable (sha256 : Hash) (v : Verifier) (format : DescriptorFormat)

def resourcesLane : OuterLane Catalog where
  scan node := .ok (scanRows sha256 node.rest.resources)
  reclaimed keyPresent row basis :=
    reclaimed sha256 keyPresent row.content basis.sweptAt basis.removalRetention
  receive node basis row :=
    !reclaimed sha256 (node.rest.resources.get? row.key).isSome row.content basis.sweptAt
      basis.removalRetention
  apply node rows :=
    let commit := applyRows sha256 node.rest.resources rows
    (((node.landResources commit).rest, (node.landResources commit).notes), commit.answer)

def descriptorsLane : OuterLane Catalog where
  scan node := .ok (format.scanRows node.rest.descriptors)
  reclaimed _ _ _ := false
  receive _ _ _ := true
  apply node rows :=
    let commit := format.applyRows node.isBound node.rest.descriptors rows
    (((node.landDescriptors commit).rest, (node.landDescriptors commit).notes), commit.answer)

def catalogHost : Host CatalogNode :=
  nodeHost v fun
    | .descriptors => descriptorsLane format
    | _ => resourcesLane sha256

end Lanes

/-! ## The writes -/

namespace IdentityTable

def revokeBinding (store : IdentityStore) (record : RevocationRecordV1) : Result IdentityStore :=
  match store.bindings record.subject with
  | none => .error (.notFound "revocation subject")
  | some key => do
      require (key = record.subjectKey) (.conflict "revocation key")
      let encoded ← revocationFormat.encode record
      match store.revocation record.subject with
      | none =>
        pure { store with
          revocation := Function.update store.revocation record.subject (some encoded) }
      | some existing => do
          let existingRecord ← revocationFormat.decode existing
          if existingRecord = record then pure store
          else do
            match ← revocationMerge existing encoded with
            | .stored => pure store
            | .fresh =>
              pure { store with
                revocation := Function.update store.revocation record.subject (some encoded) }

variable {store next : IdentityStore}

lemma revokeBinding_writes {record : RevocationRecordV1}
    (h : revokeBinding store record = .ok next) : Writes (.revocation record) store next := by
  unfold revokeBinding at h
  split at h
  · cases h
  · obtain ⟨-, h⟩ := require_bind_eq_ok.mp h
    obtain ⟨encoded, -, h⟩ := bind_eq_ok.mp h
    split at h
    · exact .inr ⟨encoded, (Except.ok.inj h).symm⟩
    · obtain ⟨existing, -, h⟩ := bind_eq_ok.mp h
      split_ifs at h
      · exact .inl (Except.ok.inj h).symm
      · obtain ⟨winner, -, h⟩ := bind_eq_ok.mp h
        cases winner with
        | stored => exact .inl (Except.ok.inj h).symm
        | fresh => exact .inr ⟨encoded, (Except.ok.inj h).symm⟩

variable (table : IdentityTable)

def revoke (record : RevocationRecordV1) : Result (IdentityTable × List Family) :=
  table.commit [record.subject]
    (recorded (.revocation record) table.store (revokeBinding table.store record))
    fun _ _ h => (revokeBinding_writes (recorded_eq_ok h)).occupied

def purgeRevocation (store : IdentityStore) (subject : NodeId) : IdentityStore × List Family :=
  match store.revocation subject with
  | none => (store, [])
  | some _ =>
    ({ store with revocation := Function.update store.revocation subject none }, [.revocation])

lemma purgeRevocation_occupied {subject node : NodeId}
    (h : Occupied (purgeRevocation store subject).1 node) : Occupied store node := by
  unfold purgeRevocation at h
  split at h
  · exact h
  · obtain hb | hl | hc | hr := h
    · exact .inl hb
    · exact .inr (.inl hl)
    · exact .inr (.inr (.inl hc))
    · refine .inr (.inr (.inr fun hnone => hr ?_))
      exact (Within.slot_update store.revocation subject node).elim id fun heq => heq.trans hnone

def purge (subject : NodeId) : IdentityTable × List Family :=
  (table.write (purgeRevocation table.store subject).1 [] fun _ hnode =>
    .inl (purgeRevocation_occupied hnode), (purgeRevocation table.store subject).2)

lemma persistCheckpoint_writes {checkpoint : CleanupCheckpointV1}
    (h : persistCheckpoint store checkpoint = .ok next) :
    Writes (.checkpoint checkpoint) store next :=
  persistRow_writes ⟨fun _ => false, fun _ _ => false, fun _ _ => false⟩ (.checkpoint checkpoint) h

def issue (checkpoint : CleanupCheckpointV1) : Result IdentityTable :=
  (table.commit [] ((persistCheckpoint table.store checkpoint).map (·, []))
    fun _ _ h => by
      obtain ⟨next, hnext, heq⟩ := map_eq_ok.mp h
      obtain ⟨rfl, -⟩ := Prod.mk.inj heq
      intro node hnode
      exact (persistCheckpoint_writes hnext).occupied node hnode).map Prod.fst

end IdentityTable

inductive Write (sha256 : Hash) (format : DescriptorFormat) where
  | putResource (record : ResourceRecordV1 sha256) (expected : Option ResourceVersion)
  | removeResource (record expected : ResourceRecordV1 sha256)
  | resourcePage (records : List (ResourceRecordV1 sha256))
  | sweepResources (now : ℤ) (retention cap : ℕ)
  | storeDescriptor (descriptor : format.Descriptor)
  | descriptorPage (page : List format.Descriptor)
  | installTerminal (record : TombstoneRow)
  | revokeBinding (record : RevocationRecordV1)
  | purgeRevocation (subject : NodeId)
  | issueCheckpoint (checkpoint : CleanupCheckpointV1)
  | adoptBinding (node : NodeId) (key : PublicKey)

section Runs

variable {sha256 : Hash} (v : Verifier) {format : DescriptorFormat} (node : CatalogNode)

def Node.issueCheckpoint (checkpoint : CleanupCheckpointV1) : CatalogNode :=
  match node.table.issue checkpoint with
  | .error _ => node
  | .ok next =>
    if next.store.checkpoint = node.table.store.checkpoint then node
    else { node with table := next, notes := node.notes.noteLocalWrite }

def Write.run : Write sha256 format → CatalogNode
  | .putResource record expected =>
    node.landResources (commitExpectedRecord node.rest.resources record expected .committed)
  | .removeResource record expected =>
    node.landResources (commitRemoval node.rest.resources record expected .committed)
  | .resourcePage records =>
    node.landResources (commitPageBatch node.rest.resources records .committed .committed)
  | .sweepResources now retention cap =>
    node.landResources (sweepRemoved sha256 node.rest.resources now retention cap .committed)
  | .storeDescriptor descriptor =>
    node.landDescriptors (format.store node.isBound node.rest.descriptors descriptor .committed)
  | .descriptorPage page =>
    node.landDescriptors
      (format.applyBatch node.isBound node.rest.descriptors page .committed .committed)
  | .installTerminal record => node.attempt (node.table.persist v record)
  | .revokeBinding record => node.attempt (node.table.revoke record)
  | .purgeRevocation subject => node.landed (node.table.purge subject)
  | .issueCheckpoint checkpoint => node.issueCheckpoint checkpoint
  | .adoptBinding peer key => node.attempt (node.table.adopt peer key)

inductive LaneRows where
  | descriptors (rows : DescriptorRows)
  | bindings (rows : NodeId → Option PublicKey)
  | resources (rows : Registers)
  | tombstones (leave cleanup revocation : NodeId → Option (List UInt8))
      (checkpoint : Option (List UInt8))

def laneRows : LaneId → LaneRows
  | .descriptors => .descriptors node.rest.descriptors
  | .trust => .bindings node.table.store.bindings
  | .resources => .resources node.rest.resources
  | .tombstones => .tombstones node.table.store.leave node.table.store.cleanup
      node.table.store.revocation node.table.store.checkpoint

inductive Event (sha256 : Hash) (format : DescriptorFormat) where
  | write (write : Write sha256 format)
  | tick (basis : SweptBasis) (alive : List NodeId)
  | deliver (basis : SweptBasis) (source : NodeId) (message : Message)

variable (w : Watch CatalogNode LaneRows)

def watchStep : Event sha256 format → Watch CatalogNode LaneRows
  | .write (.removeResource record expected) =>
    w.slipped ((Write.removeResource record expected : Write sha256 format).run v w.store)
  | .write write => w.wrote laneRows (write.run v w.store)
  | .tick basis alive => w.ticked (catalogHost sha256 v format) laneRows sha256 basis alive
  | .deliver basis source message =>
    w.delivered (catalogHost sha256 v format) laneRows sha256 basis source message

def watchRun (events : List (Event sha256 format)) :
    Watch CatalogNode LaneRows := events.foldl (watchStep v) w

def opened (table : IdentityTable) (catalog : Catalog) : Watch CatalogNode LaneRows :=
  ⟨.new, ⟨table, .new, catalog⟩, fun _ => none, fun _ => False⟩

end Runs

/-! ## Every write but the removal is noted -/

section Noted

variable {sha256 : Hash} {v : Verifier} {format : DescriptorFormat}

variable {node : CatalogNode}

lemma noted_of_families {next : CatalogNode} {noted : List Family}
    (hnotes : next.notes = noted.foldl WriteNotes.noteLocalWriteIn node.notes)
    (hrows : ∀ lane, laneRows next lane ≠ laneRows node lane → ∃ family ∈ noted, family ∈
      namespaces lane) : Noted (catalogHost sha256 v format) laneRows node next := by
  have hhost (n : CatalogNode) : (catalogHost sha256 v format).notes n = n.notes := rfl
  refine ⟨fun h => ?_, fun h lane hchanged => ?_⟩
  · rw [hhost, hhost, hnotes]
    obtain ⟨hlater, hbounded, -⟩ := WriteNotes.Bounded.foldl h noted
    exact ⟨hlater, hbounded⟩
  · rw [hhost, hhost, hnotes]
    obtain ⟨family, hfamily, hlane⟩ := hrows lane hchanged
    exact (WriteNotes.Bounded.foldl h noted).2.2 family hfamily lane hlane

lemma noted_landResources {α : Type} {commit : Commit Registers α}
    (h : NotesChanges .resourceRecord node.rest.resources commit) :
    Noted (catalogHost sha256 v format) laneRows node (node.landResources commit) := by
  refine noted_of_families rfl fun lane hchanged => ?_
  cases lane with
  | resources =>
    exact ⟨.resourceRecord, h fun hsame => hchanged (congrArg LaneRows.resources hsame), by decide⟩
  | descriptors | trust | tombstones => exact absurd rfl hchanged

lemma noted_landDescriptors {α : Type} {commit : Commit DescriptorRows α}
    (h : NotesChanges .nodeDescriptor node.rest.descriptors commit) :
    Noted (catalogHost sha256 v format) laneRows node (node.landDescriptors commit) := by
  refine noted_of_families rfl fun lane hchanged => ?_
  cases lane with
  | descriptors =>
    exact ⟨.nodeDescriptor, h fun hsame => hchanged (congrArg LaneRows.descriptors hsame),
      by decide⟩
  | resources | trust | tombstones => exact absurd rfl hchanged

structure Recorded (store next : IdentityStore) (noted : List Family) : Prop where
  bindings : next.bindings ≠ store.bindings → .identityBinding ∈ noted
  terminal : (next.leave ≠ store.leave ∨ next.cleanup ≠ store.cleanup ∨
    next.revocation ≠ store.revocation ∨ next.checkpoint ≠ store.checkpoint) →
      ∃ family ∈ noted, family ∈ namespaces .tombstones

lemma Recorded.refl (store : IdentityStore) (noted : List Family) : Recorded store store noted :=
  ⟨fun h => absurd rfl h, fun h => by simp at h⟩

lemma Recorded.append {a b c : IdentityStore} {noted later : List Family}
    (h : Recorded a b noted) (h' : Recorded b c later) : Recorded a c (noted ++ later) := by
  constructor
  · intro hchanged
    by_cases hfirst : b.bindings = a.bindings
    · exact List.mem_append_right _ (h'.bindings (hfirst ▸ hchanged))
    · exact List.mem_append_left _ (h.bindings hfirst)
  · intro hchanged
    by_cases hfirst : b.leave ≠ a.leave ∨ b.cleanup ≠ a.cleanup ∨ b.revocation ≠ a.revocation ∨
        b.checkpoint ≠ a.checkpoint
    · obtain ⟨family, hmem, hlane⟩ := h.terminal hfirst
      exact ⟨family, List.mem_append_left _ hmem, hlane⟩
    · simp only [not_or, not_not] at hfirst
      obtain ⟨hl, hc, hr, hk⟩ := hfirst
      rw [← hl, ← hc, ← hr, ← hk] at hchanged
      obtain ⟨family, hmem, hlane⟩ := h'.terminal hchanged
      exact ⟨family, List.mem_append_right _ hmem, hlane⟩

lemma Recorded.noted {change : IdentityTable × List Family}
    (h : Recorded node.table.store change.1.store change.2) :
    Noted (catalogHost sha256 v format) laneRows node (node.landed change) := by
  refine noted_of_families rfl fun lane hchanged => ?_
  cases lane with
  | trust =>
    exact ⟨.identityBinding, h.bindings fun hsame => hchanged (congrArg LaneRows.bindings hsame),
      by decide⟩
  | tombstones =>
    refine h.terminal ?_
    by_contra hsame
    simp only [not_or, not_not] at hsame
    obtain ⟨hl, hc, hr, hk⟩ := hsame
    refine hchanged ?_
    simp only [laneRows, Node.landed, hl, hc, hr, hk]
  | descriptors | resources => exact absurd rfl hchanged

variable {record : TombstoneRow} {store : IdentityStore}

lemma TombstoneRow.put_eq_self {bytes : List UInt8}
    (h : record.slot (record.put store bytes) = record.slot store) :
    record.put store bytes = store := by
  cases record with
  | leave | cleanup | revocation =>
    simp only [slot, put, Function.update_self] at h
    simp only [put, h, Function.update_eq_self]
  | checkpoint => exact congrArg (fun checkpoint => { store with checkpoint := checkpoint }) h

lemma TombstoneRow.family_mem (record : TombstoneRow) : record.family ∈ namespaces .tombstones := by
  cases record <;> simp [TombstoneRow.family, namespaces]

lemma Writes.recorded {next : IdentityStore} (h : Writes record store next) :
    Recorded store next (record.noted store next) := by
  by_cases hslot : record.slot next = record.slot store
  · have hsame : next = store := by
      rcases h with rfl | ⟨bytes, rfl⟩
      · rfl
      · exact TombstoneRow.put_eq_self hslot
    rw [hsame]
    exact .refl _ _
  · refine ⟨fun hchanged => absurd h.bindings hchanged, fun _ =>
      ⟨record.family, ?_, record.family_mem⟩⟩
    rw [TombstoneRow.noted, if_neg hslot]
    exact List.mem_singleton_self _

variable {table next : IdentityTable}

lemma recorded_commit {touched : List NodeId} {result : Result IdentityStore} {h}
    {noted : List Family} (hresult : ∀ s, result = .ok s → Writes record table.store s)
    (hcommit : table.commit touched (recorded record table.store result) h = .ok (next, noted)) :
    Recorded table.store next.store noted := by
  have hrecorded := IdentityTable.commit_eq_ok hcommit
  cases result with
  | error e => cases hrecorded
  | ok s =>
    obtain ⟨rfl, rfl⟩ := Prod.mk.inj (Except.ok.inj hrecorded)
    exact (hresult _ rfl).recorded

lemma adopt_recorded {node : NodeId} {key : PublicKey} {noted : List Family}
    (h : table.adopt node key = .ok (next, noted)) : Recorded table.store next.store noted := by
  have hadopt := IdentityTable.commit_eq_ok h
  unfold adoptBinding at hadopt
  split at hadopt
  · obtain ⟨-, hadopt⟩ := require_bind_eq_ok.mp hadopt
    rw [← (Prod.mk.inj (Except.ok.inj hadopt)).1]
    exact .refl _ _
  · obtain ⟨revoked, -, hadopt⟩ := bind_eq_ok.mp hadopt
    obtain ⟨-, hadopt⟩ := require_bind_eq_ok.mp hadopt
    obtain ⟨encoded, -, hadopt⟩ := bind_eq_ok.mp hadopt
    obtain ⟨hnext, rfl⟩ := Prod.mk.inj (Except.ok.inj hadopt)
    rw [← hnext]
    exact ⟨fun _ => List.mem_singleton_self _, fun h => by simp at h⟩

lemma purge_recorded (table : IdentityTable) (subject : NodeId) :
    Recorded table.store (table.purge subject).1.store (table.purge subject).2 := by
  show Recorded table.store (IdentityTable.purgeRevocation table.store subject).1
    (IdentityTable.purgeRevocation table.store subject).2
  unfold IdentityTable.purgeRevocation
  split
  · exact .refl _ _
  · exact ⟨fun h => absurd rfl h, fun _ => ⟨.revocation, List.mem_singleton_self _, by decide⟩⟩

lemma adoptRows_recorded (table : IdentityTable) (rows : List (Row × IdentityBindingV1)) :
    Recorded table.store (adoptRows table rows).1.1.store (adoptRows table rows).1.2 := by
  induction rows generalizing table with
  | nil => exact .refl _ _
  | cons head rows ih =>
    unfold adoptRows
    cases hadopt : table.adopt head.2.node head.2.publicKey with
    | ok change => exact (adopt_recorded hadopt).append (ih change.1)
    | error e =>
      dsimp only
      split
      · exact ih table
      · exact .refl _ _

lemma applyRowsNoted_recorded (evidence : TombstoneEvidence) (table : IdentityTable)
    (rows : List Row) :
    Recorded table.store (applyRowsNoted v evidence table rows).1.1.store
      (applyRowsNoted v evidence table rows).1.2 := by
  induction rows generalizing table with
  | nil => exact .refl _ _
  | cons row rows ih =>
    unfold applyRowsNoted
    cases decodeTombstoneRow v row with
    | none => exact ih table
    | some decoded =>
      dsimp only
      cases hrow : table.applyRow v evidence decoded with
      | error e => exact .refl _ _
      | ok change =>
        exact (recorded_commit (fun _ => applyRow_writes) hrow).append (ih change.1)

lemma apply_noted (lane : LaneId) (node : CatalogNode) (rows : List Row) :
    Noted (catalogHost sha256 v format) laneRows node
      (((catalogHost sha256 v format).policy lane).apply node rows).1 := by
  cases lane with
  | descriptors => exact noted_landDescriptors (format.applyRows_notes node.isBound _ rows)
  | trust => exact Recorded.noted (adoptRows_recorded node.table _)
  | resources => exact noted_landResources (applyRows_notes node.rest.resources rows)
  | tombstones =>
    have hrecorded : Recorded node.table.store (tombstoneApply v node.table rows).1.1.store
        (tombstoneApply v node.table rows).1.2 := by
      unfold tombstoneApply
      cases tombstoneEvidence node.table.store with
      | error e => exact .refl _ _
      | ok evidence => exact applyRowsNoted_recorded evidence node.table rows
    exact hrecorded.noted

lemma attempt_noted {result : Result (IdentityTable × List Family)}
    (h : ∀ next noted, result = .ok (next, noted) → Recorded node.table.store next.store noted) :
    Noted (catalogHost sha256 v format) laneRows node (node.attempt result) := by
  cases result with
  | error e => exact .refl node
  | ok change => exact (h change.1 change.2 rfl).noted

lemma issueCheckpoint_noted (node : CatalogNode) (checkpoint : CleanupCheckpointV1) :
    Noted (catalogHost sha256 v format) laneRows node (node.issueCheckpoint checkpoint) := by
  unfold Node.issueCheckpoint
  split
  · exact .refl node
  · split_ifs
    · exact .refl node
    · exact ⟨fun h => WriteNotes.Bounded.noteLocalWrite h,
        fun _ _ _ => WriteNotes.marks_noteLocalWrite⟩

/-- **Every write but the removal is noted.** -/
theorem Write.run_noted (write : Write sha256 format)
    (h : ∀ record expected, write ≠ .removeResource record expected) (node : CatalogNode) :
    Noted (catalogHost sha256 v format) laneRows node (write.run v node) := by
  cases write with
  | putResource record expected =>
    exact noted_landResources (commitExpectedRecord_notes node.rest.resources record expected)
  | removeResource record expected => exact absurd rfl (h record expected)
  | resourcePage records =>
    exact noted_landResources (commitPageBatch_notes node.rest.resources records)
  | sweepResources now retention cap =>
    exact noted_landResources (sweepRemoved_notes node.rest.resources now retention cap)
  | storeDescriptor descriptor => exact noted_landDescriptors (format.store_notes _ _ descriptor)
  | descriptorPage page => exact noted_landDescriptors (format.applyBatch_notes _ _ page)
  | installTerminal record =>
    exact attempt_noted fun _ _ => recorded_commit fun _ => persistRow_writes v record
  | revokeBinding record =>
    exact attempt_noted fun _ _ => recorded_commit fun _ => IdentityTable.revokeBinding_writes
  | purgeRevocation subject => exact (purge_recorded node.table subject).noted
  | issueCheckpoint checkpoint => exact issueCheckpoint_noted node checkpoint
  | adoptBinding peer key => exact attempt_noted fun _ _ => adopt_recorded

lemma commitPut_noted (registers : Registers) (record : ResourceRecordV1 sha256) (context : String)
    (ended : CommitEnd) : (commitPut registers record context ended).noted = [] := by
  unfold commitPut
  split <;> rfl

lemma removeResource_quiet (record expected : ResourceRecordV1 sha256) (node : CatalogNode) :
    ((Write.removeResource record expected : Write sha256 format).run v node).notes = node.notes ∧
      ∀ lane, lane ≠ .resources →
        laneRows ((Write.removeResource record expected : Write sha256 format).run v node) lane =
          laneRows node lane := by
  constructor
  · have hnoted : (commitRemoval node.rest.resources record expected .committed).noted = [] := by
      rcases commitRemoval_cases node.rest.resources record expected .committed with
        ⟨answer, hcommit⟩ | ⟨-, -, hcommit⟩
      · rw [hcommit]
        rfl
      · rw [hcommit]
        exact commitPut_noted _ _ _ _
    show (commitRemoval node.rest.resources record expected .committed).noted.foldl _ _ = _
    rw [hnoted]
    rfl
  · intro lane hlane
    cases lane with
    | resources => exact absurd rfl hlane
    | descriptors | trust | tombstones => rfl

end Noted

/-! ## Runs -/

section Coverage

variable {sha256 : Hash} {v : Verifier} {format : DescriptorFormat}

abbrev Covered (sha256 : Hash) (v : Verifier) (format : DescriptorFormat)
    (w : Watch CatalogNode LaneRows) : Prop :=
  w.Sound (catalogHost sha256 v format) laneRows (· = .resources)

lemma covered_opened (table : IdentityTable) (catalog : Catalog) :
    Covered sha256 v format (opened table catalog) :=
  ⟨.new, le_rfl, fun _ h => h.elim, fun _ _ _ h => nomatch h⟩

variable {w : Watch CatalogNode LaneRows}

lemma Covered.step (h : Covered sha256 v format w) (event : Event sha256 format) :
    Covered sha256 v format (watchStep v w event) := by
  cases event with
  | write write =>
    by_cases hremoval : ∃ record expected, write = .removeResource record expected
    · obtain ⟨record, expected, rfl⟩ := hremoval
      obtain ⟨hnotes, hrows⟩ := @removeResource_quiet sha256 v format record expected w.store
      exact h.slipped hnotes hrows
    · have hnoted := write.run_noted (v := v)
        (fun record expected heq => hremoval ⟨record, expected, heq⟩) w.store
      cases write with
      | removeResource record expected => exact absurd ⟨record, expected, rfl⟩ hremoval
      | _ => exact h.wrote hnoted
  | tick basis alive => exact h.ticked sha256 basis alive apply_noted
  | deliver basis source message => exact h.delivered sha256 basis source message apply_noted

lemma Covered.run (h : Covered sha256 v format w) (events : List (Event sha256 format)) :
    Covered sha256 v format (watchRun v w events) :=
  List.foldlRecOn (motive := Covered sha256 v format) events _ h
    fun _ hw event _ => Covered.step hw event

lemma seen_tick_write {basis : SweptBasis} {alive : List NodeId} {lane : LaneId}
    (h : lane ∈ scannedLanes (catalogHost sha256 v format) alive w.plane w.store)
    (write : Write sha256 format) :
    (watchRun v w [.tick basis alive, .write write]).seen lane = some (laneRows w.store lane) := by
  have hwrite (w : Watch CatalogNode LaneRows) : (watchStep v w (.write write)).seen = w.seen := by
    cases write <;> rfl
  exact (congrFun (hwrite _) lane).trans (Watch.seen_ticked _ _ h)

lemma announced_tick_put {basis : SweptBasis} {alive : List NodeId}
    {record : ResourceRecordV1 sha256} {lane : LaneId}
    (h : laneRows (watchRun v w [.tick basis alive, (.write (.putResource record none) : Event
      sha256 format)]).store lane ≠ laneRows (watchRun v w [(.tick basis alive : Event sha256
      format)]).store lane) : (watchRun v w [.tick basis alive,
      (.write (.putResource record none) : Event sha256 format)]).announced lane := .inr h

end Coverage

/-! ## A removal that is not scanned -/

def noDescriptors : DescriptorFormat where
  Descriptor := Empty
  node := nofun
  revision := nofun
  encode := nofun
  decode _ := .error (.invalidInput "descriptor")

def catalogStart : Watch CatalogNode LaneRows := opened seatTable ⟨.empty, .empty⟩

def catalogTick : Event sumHash noDescriptors := .tick ⟨0, 0⟩ [seat 1]

def sampleStored : Watch CatalogNode LaneRows :=
  watchStep acceptAll catalogStart
    (.write (.putResource (sampleRecord 1 false) none) : Event sumHash noDescriptors)

def sampleRemoved : Watch CatalogNode LaneRows :=
  watchRun acceptAll sampleStored
    [catalogTick, .write (.removeResource (sampleRecord 2 true) (sampleRecord 1 false))]

/-- **A removal is not scanned**: the peer is primed, the rows of the resources lane are no longer
those that the last scan listed, and the next tick does not plan the lane. -/
theorem removal_not_planned :
    (sampleRemoved.plane.peers.get? (seat 1)).any PeerState.primed = true ∧
      (∃ listed, sampleRemoved.seen .resources = some listed ∧
        laneRows sampleRemoved.store .resources ≠ listed) ∧
      .resources ∉ (scanPlan sampleRemoved.plane sampleRemoved.store.notes [seat 1]).1 := by
  have hrun : .resources ∈ scannedLanes (catalogHost sumHash acceptAll noDescriptors)
      [seat 1]
        sampleStored.plane sampleStored.store ∧
      (sampleRemoved.plane.peers.get? (seat 1)).any PeerState.primed = true ∧
      sampleRemoved.store.rest.resources.entries ≠ sampleStored.store.rest.resources.entries ∧
      .resources ∉ (scanPlan sampleRemoved.plane sampleRemoved.store.notes [seat 1]).1 := by
    decide +kernel
  obtain ⟨hscanned, hprimed, hrows, hplan⟩ := hrun
  have hseen : sampleRemoved.seen .resources = some (laneRows sampleStored.store .resources) :=
    seen_tick_write hscanned _
  refine ⟨hprimed, ⟨_, hseen, fun heq => hrows ?_⟩, hplan⟩
  exact congrArg OrdMap.entries (LaneRows.resources.inj heq)

/-- **A changed lane is planned.**  In every run of a node, a lane whose rows are not those that
its last scan listed is marked past the claimed epoch, and every tick plans it, provided that
the resources lane was not changed by removals alone. -/
theorem changed_lane_planned {sha256 : Hash} {v : Verifier} {format : DescriptorFormat}
    (table : IdentityTable) (catalog : Catalog) (events : List (Event sha256 format))
    {lane : LaneId}
    {listed : LaneRows} (hseen : (watchRun v (opened table catalog) events).seen lane = some listed)
    (hchanged : laneRows (watchRun v (opened table catalog) events).store lane ≠ listed)
    (hremovals : lane = .resources → (watchRun v (opened table catalog) events).announced lane)
    (alive : List NodeId) :
    (watchRun v (opened table catalog) events).Plans (catalogHost sha256 v format) lane alive :=
  Watch.Sound.plans (Covered.run (covered_opened table catalog) events) hseen hchanged
    hremovals alive

def samplePut : List (Event sumHash noDescriptors) :=
  [catalogTick, .write (.putResource (sampleRecord 1 false) none)]

/-- The put after the scan is planned. -/
theorem put_planned :
    (watchRun acceptAll catalogStart samplePut).Plans
    (catalogHost sumHash acceptAll noDescriptors)
      .resources [seat 1] := by
  have hrun : .resources ∈ scannedLanes (catalogHost sumHash acceptAll noDescriptors)
      [seat 1]
        catalogStart.plane catalogStart.store ∧
      (watchRun acceptAll catalogStart samplePut).store.rest.resources.entries ≠ [] ∧
      (watchRun acceptAll catalogStart [catalogTick]).store.rest.resources.entries = [] := by
    decide +kernel
  have hstored := hrun.2.1
  have hrows : laneRows (watchRun acceptAll catalogStart samplePut).store .resources ≠
      laneRows catalogStart.store .resources :=
    fun heq => hstored (congrArg OrdMap.entries (LaneRows.resources.inj heq))
  have hannounced : laneRows (watchRun acceptAll catalogStart samplePut).store .resources ≠
      laneRows (watchRun acceptAll catalogStart [catalogTick]).store .resources :=
    fun heq => hstored ((congrArg OrdMap.entries (LaneRows.resources.inj heq)).trans hrun.2.2)
  have hseen : (watchRun acceptAll catalogStart samplePut).seen .resources =
      some (laneRows catalogStart.store .resources) := seen_tick_write hrun.1 _
  have hput : (watchRun acceptAll catalogStart samplePut).announced .resources :=
    announced_tick_put hannounced
  exact changed_lane_planned seatTable ⟨.empty, .empty⟩ samplePut hseen hrows (fun _ => hput)
    [seat 1]

end Radiata.Membership
