import Radiata.Identity.Binding
import Radiata.Membership.Tombstone
import Radiata.Reconcile.PlaneRows

/-!
# A node and its lanes

The node's store as its reconciliation plane sees it: the identity families, the write
notes, and everything the descriptor and resource lanes keep.  The trust and tombstone
lanes are given by their policies over the identity families; the other two are any
policies that read the node and write only their own part.
-/

namespace Radiata.Membership

open Lib Identity Reconcile Storage

/-! ## The identity families as a table -/

def Occupied (store : IdentityStore) (node : NodeId) : Prop :=
  store.bindings node ≠ none ∨ store.leave node ≠ none ∨ store.cleanup node ≠ none ∨
    store.revocation node ≠ none

structure IdentityTable where
  store : IdentityStore
  members : OrdMap NodeId Unit
  covers : ∀ node, Occupied store node → (node, ()) ∈ members

namespace IdentityTable

variable (table : IdentityTable)

def write (next : IdentityStore) (touched : List NodeId)
    (h : ∀ node, Occupied next node → Occupied table.store node ∨ node ∈ touched) :
    IdentityTable where
  store := next
  members := touched.foldl (fun m node => m.insert node ()) table.members
  covers := by
    have hinsert : ∀ (touched : List NodeId) (m : OrdMap NodeId Unit) (node : NodeId),
        (node, ()) ∈ m ∨ node ∈ touched →
          (node, ()) ∈ touched.foldl (fun m node => m.insert node ()) m := by
      intro touched
      induction touched with
      | nil => exact fun m node h => h.resolve_right List.not_mem_nil
      | cons head tail ih =>
        intro m node h
        refine ih _ _ ?_
        rw [OrdMap.mem_insert]
        by_cases heq : node = head
        · exact .inl (.inl (by rw [heq]))
        · rcases h with hm | ht
          · exact .inl (.inr ⟨hm, heq⟩)
          · exact .inr ((List.mem_cons.mp ht).resolve_left heq)
    intro node hnode
    exact hinsert touched _ node ((h node hnode).imp_left (table.covers node))

def commit (touched : List NodeId) (result : Result (IdentityStore × List Family))
    (h : ∀ next noted, result = .ok (next, noted) →
      ∀ node, Occupied next node → Occupied table.store node ∨ node ∈ touched) :
    Result (IdentityTable × List Family) :=
  match result, h with
  | .error e, _ => .error e
  | .ok (next, noted), h => .ok (table.write next touched (h next noted rfl), noted)

variable {table : IdentityTable} {touched : List NodeId}
  {result : Result (IdentityStore × List Family)}

lemma commit_eq_ok {next : IdentityTable} {h} {noted : List Family}
    (hcommit : table.commit touched result h = .ok (next, noted)) :
    result = .ok (next.store, noted) := by
  cases result with
  | error e => cases hcommit
  | ok change =>
    obtain ⟨rfl, rfl⟩ := Prod.mk.inj (Except.ok.inj hcommit)
    rfl

lemma commit_eq_error {h} {e : Error} (hcommit : table.commit touched result h = .error e) :
    result = .error e := by
  cases result with
  | error e' => exact congrArg _ (Except.error.inj hcommit)
  | ok change => cases hcommit

def rows {α : Type} (table : IdentityTable) (row : NodeId → Option α) : List α :=
  table.members.keys.filterMap row

end IdentityTable

/-! ## Terminal records and their notes -/

namespace TombstoneRow

def family : TombstoneRow → Family
  | leave _ => .leave
  | cleanup _ => .cleanup
  | revocation _ => .revocation
  | checkpoint _ => .checkpoint

def subjects : TombstoneRow → List NodeId
  | leave r => [r.node]
  | cleanup r => [r.subject]
  | revocation r => [r.subject]
  | checkpoint _ => []

variable (store : IdentityStore)

def slot : TombstoneRow → Option (List UInt8)
  | leave r => store.leave r.node
  | cleanup r => store.cleanup r.subject
  | revocation r => store.revocation r.subject
  | checkpoint _ => store.checkpoint

def put (bytes : List UInt8) : TombstoneRow → IdentityStore
  | leave r => { store with leave := Function.update store.leave r.node (some bytes) }
  | cleanup r => { store with cleanup := Function.update store.cleanup r.subject (some bytes) }
  | revocation r =>
    { store with revocation := Function.update store.revocation r.subject (some bytes) }
  | checkpoint _ => { store with checkpoint := some bytes }

def noted (record : TombstoneRow) (before after : IdentityStore) : List Family :=
  if record.slot after = record.slot before then [] else [record.family]

end TombstoneRow

def persistRow (v : Verifier) (store : IdentityStore) : TombstoneRow → Result IdentityStore
  | .leave record => persistLeaveRecord v store record
  | .cleanup record => persistCleanupRecord v store record
  | .revocation record => persistRevocation v store record
  | .checkpoint record => persistCheckpoint store record

def Writes (record : TombstoneRow) (store next : IdentityStore) : Prop :=
  next = store ∨ ∃ bytes, next = record.put store bytes

variable {store next : IdentityStore}

lemma persistRow_writes (v : Verifier) (record : TombstoneRow)
    (h : persistRow v store record = .ok next) : Writes record store next := by
  cases record with
  | leave r =>
    obtain ⟨-, h⟩ := require_bind_eq_ok.mp h
    obtain ⟨-, h⟩ := require_bind_eq_ok.mp h
    obtain ⟨encoded, -, h⟩ := bind_eq_ok.mp h
    obtain ⟨bytes, -, h⟩ := bind_eq_ok.mp h
    exact .inr ⟨bytes, (Except.ok.inj h).symm⟩
  | cleanup r | revocation r =>
    obtain ⟨-, -, h⟩ := bind_eq_ok.mp h
    obtain ⟨encoded, -, h⟩ := bind_eq_ok.mp h
    obtain ⟨bytes, -, h⟩ := bind_eq_ok.mp h
    exact .inr ⟨bytes, (Except.ok.inj h).symm⟩
  | checkpoint c =>
    obtain ⟨covered, -, h⟩ := bind_eq_ok.mp h
    cases covered with
    | true => exact .inl (Except.ok.inj h).symm
    | false =>
      obtain ⟨bytes, -, h⟩ := bind_eq_ok.mp h
      exact .inr ⟨bytes, (Except.ok.inj h).symm⟩

variable {record : TombstoneRow} {result : Result IdentityStore}

lemma passingOver_writes {kinds : List ErrorKind}
    (hresult : ∀ s, result = .ok s → Writes record store s)
    (h : passingOver kinds store result = .ok next) : Writes record store next := by
  cases result with
  | ok s => exact Except.ok.inj h ▸ hresult s rfl
  | error e =>
    dsimp only [passingOver] at h
    split_ifs at h
    exact .inl (Except.ok.inj h).symm

lemma applyRow_writes {v : Verifier} {evidence : TombstoneEvidence}
    (h : applyRow v evidence store record = .ok next) : Writes record store next := by
  cases record with
  | leave r =>
    refine passingOver_writes (fun s hs => ?_) h
    unfold applyLeaveRecord at hs
    split_ifs at hs
    · exact .inl (Except.ok.inj hs).symm
    · split at hs
      · exact .inl (Except.ok.inj hs).symm
      · obtain ⟨-, hs⟩ := require_bind_eq_ok.mp hs
        exact persistRow_writes v (.leave r) hs
  | cleanup r =>
    refine passingOver_writes (fun s hs => ?_) h
    unfold applyCleanupRecord at hs
    split_ifs at hs
    · exact .inl (Except.ok.inj hs).symm
    · exact .inl (Except.ok.inj hs).symm
    · exact persistRow_writes v (.cleanup r) hs
  | revocation r =>
    refine passingOver_writes (fun s hs => ?_) h
    unfold applyRevocationRecord at hs
    split_ifs at hs
    · exact .inl (Except.ok.inj hs).symm
    · exact persistRow_writes v (.revocation r) hs
  | checkpoint c => exact persistRow_writes v (.checkpoint c) h

lemma Writes.bindings (h : Writes record store next) : next.bindings = store.bindings := by
  rcases h with rfl | ⟨bytes, rfl⟩
  · rfl
  · cases record <;> rfl

lemma update_ne_none {α β : Type} [DecidableEq α] {f : α → Option β} {a x : α} {b : β}
    (h : Function.update f a (some b) x ≠ none) : f x ≠ none ∨ x = a := by
  by_cases heq : x = a
  · exact .inr heq
  · rw [Function.update_of_ne heq] at h
    exact .inl h

lemma Writes.occupied {record : TombstoneRow} {store next : IdentityStore}
    (h : Writes record store next) (node : NodeId) (hnode : Occupied next node) :
    Occupied store node ∨ node ∈ record.subjects := by
  rcases h with rfl | ⟨bytes, rfl⟩
  · exact .inl hnode
  · obtain hb | hl | hc | hr := hnode
    · cases record <;> exact .inl (.inl hb)
    · cases record with
      | leave r =>
        exact (update_ne_none hl).imp (fun h => .inr (.inl h)) List.mem_singleton.mpr
      | cleanup | revocation | checkpoint => exact .inl (.inr (.inl hl))
    · cases record with
      | cleanup r =>
        exact (update_ne_none hc).imp (fun h => .inr (.inr (.inl h))) List.mem_singleton.mpr
      | leave | revocation | checkpoint => exact .inl (.inr (.inr (.inl hc)))
    · cases record with
      | revocation r =>
        exact (update_ne_none hr).imp (fun h => .inr (.inr (.inr h))) List.mem_singleton.mpr
      | leave | cleanup | checkpoint => exact .inl (.inr (.inr (.inr hr)))

def recorded (record : TombstoneRow) (store : IdentityStore) (result : Result IdentityStore) :
    Result (IdentityStore × List Family) :=
  result.map fun next => (next, record.noted store next)

lemma recorded_eq_ok {record : TombstoneRow} {store next : IdentityStore}
    {result : Result IdentityStore} {noted : List Family}
    (h : recorded record store result = .ok (next, noted)) : result = .ok next := by
  cases result with
  | error e => cases h
  | ok s => exact congrArg _ (Prod.mk.inj (Except.ok.inj h)).1

lemma recorded_eq_error {e : Error} (h : recorded record store result = .error e) :
    result = .error e := by
  cases result with
  | error e' => exact congrArg _ (Except.error.inj h)
  | ok s => cases h

namespace IdentityTable

variable (v : Verifier) (table : IdentityTable)

def persist (record : TombstoneRow) : Result (IdentityTable × List Family) :=
  table.commit record.subjects (recorded record table.store (persistRow v table.store record))
    fun _ _ h => (persistRow_writes v record (recorded_eq_ok h)).occupied

def applyRow (evidence : TombstoneEvidence) (record : TombstoneRow) :
    Result (IdentityTable × List Family) :=
  table.commit record.subjects
    (recorded record table.store (Membership.applyRow v evidence table.store record))
    fun _ _ h => (applyRow_writes (recorded_eq_ok h)).occupied

lemma adopt_occupied {node : NodeId} {key : PublicKey} {noted : List Family}
    (h : adoptBinding store node key = .ok (next, noted)) (x : NodeId) (hx : Occupied next x) :
    Occupied store x ∨ x ∈ [node] := by
  rcases adoptBinding_eq_ok h with rfl | rfl
  · exact .inl hx
  · rcases hx with hb | hrest
    · exact (update_ne_none hb).imp .inl List.mem_singleton.mpr
    · exact .inl (.inr hrest)

def adopt (node : NodeId) (key : PublicKey) : Result (IdentityTable × List Family) :=
  table.commit [node] (adoptBinding table.store node key) fun _ _ h => adopt_occupied h

lemma within_occupied {base : IdentityStore} (h : Within store base) (node : NodeId)
    (hnode : Occupied store node) : Occupied base node := by
  obtain hb | hl | hc | hr := hnode
  · exact .inl ((h.bindings node).resolve_left hb ▸ hb)
  · exact .inr (.inl ((h.leave node).resolve_left hl ▸ hl))
  · exact .inr (.inr (.inl ((h.cleanup node).resolve_left hc ▸ hc)))
  · exact .inr (.inr (.inr (h.revocation ▸ hr)))

def collect : IdentityTable × List Family :=
  let collected := collectCollectedTombstones table.members.keys table.store
  (table.write collected.1.1 [] fun node hnode =>
    .inl (within_occupied (collectCollectedTombstones_within _ _) node hnode), collected.1.2)

end IdentityTable

/-! ## The trust lane -/

def decodeIdentified {α : Type} (decode : List UInt8 → Result α) (identity : α → List UInt8)
    (row : Row) : Option α :=
  match decode row.content with
  | .ok record => if row.key = identity record then some record else none
  | .error _ => none

def readBinding : Row → Option IdentityBindingV1 :=
  decodeIdentified IdentityBindingV1.decode fun binding => idBytes binding.node

def bindingRow (binding : IdentityBindingV1) : Option Row :=
  binding.encode.toOption.map fun content => ⟨idBytes binding.node, content⟩

lemma readBinding_bindingRow {binding : IdentityBindingV1} {row : Row}
    (h : bindingRow binding = some row) : readBinding row = some binding := by
  unfold bindingRow at h
  cases hencode : binding.encode with
  | error e =>
    rw [hencode] at h
    cases h
  | ok content =>
    rw [hencode] at h
    obtain rfl := Option.some.inj h
    have hdecode := IdentityBindingV1.decode_eq_ok.mpr hencode
    simp [readBinding, decodeIdentified, hdecode]

def trustScan (table : IdentityTable) : List Row :=
  table.rows fun node => (table.store.bindings node).bind fun key => bindingRow ⟨node, key⟩

def adoptionSkips : List ErrorKind := [.conflict, .notReady, .revoked, .notTrusted]

def adoptionRefusals : List ErrorKind := [.revoked, .notTrusted]

def adoptRows : IdentityTable → List (Row × IdentityBindingV1) →
    (IdentityTable × List Family) × Result (List Row)
  | table, [] => ((table, []), .ok [])
  | table, (row, binding) :: rows =>
    match table.adopt binding.node binding.publicKey with
    | .ok (next, noted) =>
      let ((final, later), refused) := adoptRows next rows
      ((final, noted ++ later), refused)
    | .error e =>
      if e.kind ∈ adoptionSkips then
        let (final, refused) := adoptRows table rows
        (final, if e.kind ∈ adoptionRefusals then refused.map (row :: ·) else refused)
      else ((table, []), .error e)

section

variable (table : IdentityTable)

def trustApply (rows : List Row) : (IdentityTable × List Family) × Result (List Row) :=
  let decoded := rows.filterMap fun row => (readBinding row).map (row, ·)
  let (final, refused) := adoptRows table decoded
  (final, refused.map (rows.filter (fun row => (readBinding row).isNone) ++ ·))

/-! ## The tombstone lane -/

def collectedRow (checkpoint : Option Millis) (row : Row) : Bool :=
  match row.key.head?.bind TombstoneKind.fromPrefix with
  | some .leave =>
    (leaveFormat.decode row.content).toOption.any fun r => collected checkpoint r.timestampMillis
  | some .cleanup =>
    (cleanupFormat.decode row.content).toOption.any fun r => collected checkpoint r.timestampMillis
  | _ => false

def kindRows {α : Type} (kind : TombstoneKind) (format : RecordFormat α)
    (slot : NodeId → Option (List UInt8)) : List Row :=
  (table.rows fun node => (slot node).map fun content =>
    (⟨kind.rowKey (idBytes node), content⟩ : Row)).filter fun row =>
    (format.decode row.content).isOk

def tombstoneScan : Result (List Row) := do
  let checkpoint ← latestCheckpointMillis table.store
  let rows := kindRows table .leave leaveFormat table.store.leave ++
    kindRows table .cleanup cleanupFormat table.store.cleanup ++
    kindRows table .revocation revocationFormat table.store.revocation
  pure (rows.filter (fun row => !collectedRow checkpoint row) ++
    (table.store.checkpoint.map fun content =>
      (⟨TombstoneKind.checkpoint.rowKey checkpointKey, content⟩ : Row)).toList)

def tombstoneReceive (rows : List Row) : Result (List Row) := do
  let checkpoint ← latestCheckpointMillis table.store
  pure (rows.filter fun row => !collectedRow checkpoint row)

end

def applyRowsNoted (v : Verifier) (evidence : TombstoneEvidence) :
    IdentityTable → List Row → (IdentityTable × List Family) × Result (List Row)
  | table, [] => ((table, []), .ok [])
  | table, row :: rows =>
    match decodeTombstoneRow v row with
    | none =>
      let (final, refused) := applyRowsNoted v evidence table rows
      (final, refused.map (row :: ·))
    | some decoded =>
      match table.applyRow v evidence decoded with
      | .error e => ((table, []), .error e)
      | .ok (next, noted) =>
        let ((final, later), refused) := applyRowsNoted v evidence next rows
        ((final, noted ++ later), refused)

def tombstoneApply (v : Verifier) (table : IdentityTable) (rows : List Row) :
    (IdentityTable × List Family) × Result (List Row) :=
  match tombstoneEvidence table.store with
  | .error e => ((table, []), .error e)
  | .ok evidence => applyRowsNoted v evidence table rows

lemma applyRowsNoted_eq (v : Verifier) (evidence : TombstoneEvidence) (table : IdentityTable)
    (rows : List Row) :
    ((applyRowsNoted v evidence table rows).1.1.store, (applyRowsNoted v evidence table rows).2) =
      applyRowsUnder v evidence table.store rows := by
  induction rows generalizing table with
  | nil => rfl
  | cons row rows ih =>
    unfold applyRowsNoted applyRowsUnder
    cases decodeTombstoneRow v row with
    | none => simp only [← ih table]
    | some decoded =>
      cases hrow : table.applyRow v evidence decoded with
      | error e =>
        have herror : applyRow v evidence table.store decoded = .error e :=
          recorded_eq_error (IdentityTable.commit_eq_error hrow)
        simp only [hrow, herror]
      | ok change =>
        obtain ⟨next, noted⟩ := change
        have hnext : applyRow v evidence table.store decoded = .ok next.store :=
          recorded_eq_ok (IdentityTable.commit_eq_ok hrow)
        simp only [hrow, hnext, ← ih next]

/-- **Taking notes changes neither what a batch writes nor what it refuses.** -/
theorem tombstoneApply_eq (v : Verifier) (table : IdentityTable) (rows : List Row) :
    ((tombstoneApply v table rows).1.1.store, (tombstoneApply v table rows).2) =
      applyTombstoneRows v table.store rows := by
  unfold tombstoneApply applyTombstoneRows
  cases tombstoneEvidence table.store with
  | error e => rfl
  | ok evidence => exact applyRowsNoted_eq v evidence table rows

/-! ## The node -/

structure Node (ρ : Type) where
  table : IdentityTable
  notes : WriteNotes
  rest : ρ

namespace Node

variable {ρ : Type} (node : Node ρ)

def landed (change : IdentityTable × List Family) : Node ρ :=
  { node with
    table := change.1
    notes := change.2.foldl WriteNotes.noteLocalWriteIn node.notes }

def attempt : Result (IdentityTable × List Family) → Node ρ
  | .ok change => node.landed change
  | .error _ => node

def trustedBinding (peer : NodeId) : Result PublicKey :=
  Identity.trustedBinding node.table.store peer

end Node

structure OuterLane (ρ : Type) where
  scan : Node ρ → Result (List Row)
  reclaimed : Bool → Row → SweptBasis → Bool
  receive : Node ρ → SweptBasis → Row → Bool
  apply : Node ρ → List Row → (ρ × WriteNotes) × Result (List Row)

section Host

variable {ρ : Type} (v : Verifier) (outer : LaneId → OuterLane ρ)

def trustLane : LanePolicy (Node ρ) where
  scan node := .ok (trustScan node.table)
  reclaimed _ _ _ _ := false
  readsCheckpoint := false
  receive _ _ rows := .ok rows
  apply node rows :=
    let (change, refused) := trustApply node.table rows
    (node.landed change, refused)

def tombstonesLane : LanePolicy (Node ρ) where
  scan node := tombstoneScan node.table
  reclaimed _ row _ checkpoint := collectedRow checkpoint row
  readsCheckpoint := true
  receive node _ rows := tombstoneReceive node.table rows
  apply node rows :=
    let (change, refused) := tombstoneApply v node.table rows
    (node.landed change, refused)

def outerLane (lane : OuterLane ρ) : LanePolicy (Node ρ) where
  scan := lane.scan
  reclaimed keyPresent row basis _ := lane.reclaimed keyPresent row basis
  readsCheckpoint := false
  receive node basis rows := .ok (rows.filter (lane.receive node basis))
  apply node rows :=
    let ((rest, notes), refused) := lane.apply node rows
    ({ node with rest := rest, notes := notes }, refused)

def nodeHost : Host (Node ρ) where
  policy
    | .trust => trustLane
    | .tombstones => tombstonesLane v
    | .descriptors => outerLane (outer .descriptors)
    | .resources => outerLane (outer .resources)
  notes := Node.notes
  latestCheckpoint node := latestCheckpointMillis node.table.store
  hasMembers node := .ok (decide (1 < (node.table.rows node.table.store.bindings).length))

end Host

end Radiata.Membership
