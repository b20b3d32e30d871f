import Radiata.Membership.Node
import Radiata.Membership.TombstoneOrder

/-!
# Collected members

The checkpoint collection deletes a departed member's terminal record and its binding
together, so that its key cannot be admitted again.  Two places outside the store can still
bring the binding back: the trust engines of the plane, whose rows the derived-view repair
re-applies when the store lacks their key, and the rows of peers that have not collected
yet.  Neither is checked against the collection, since the record that would tell is gone.

Where no trust engine holds the row at the collection and no message brings it afterwards,
the binding stays retired.
-/

namespace Radiata.Membership

open Lib Identity Reconcile Storage

/-! ## Runs of one replica -/

structure Replica (ρ : Type) where
  plane : PlaneState
  node : Node ρ

inductive Pass (ρ : Type) where
  | install (record : TombstoneRow)
  | collect
  | adopt (node : NodeId) (key : PublicKey)
  | write (rest : ρ) (family : Family)
  | tick (basis : SweptBasis) (alive : List NodeId)
  | deliver (basis : SweptBasis) (source : NodeId) (message : Message)
  | dispatched (peer : NodeId) (message : Message) (delivered weak : Bool)

section Runs

variable {ρ : Type} (sha256 : Hash) (v : Verifier) (outer : LaneId → OuterLane ρ)

def Replica.step (r : Replica ρ) : Pass ρ → Replica ρ
  | .install record => { r with node := r.node.attempt (r.node.table.persist v record) }
  | .collect => { r with node := r.node.landed r.node.table.collect }
  | .adopt node key => { r with node := r.node.attempt (r.node.table.adopt node key) }
  | .write rest family =>
    { r with node := { r.node with rest := rest, notes := r.node.notes.noteLocalWriteIn family } }
  | .tick basis alive =>
    let (_, plane, node) := tick sha256 (nodeHost v outer) basis alive r.plane r.node
    ⟨plane, node⟩
  | .deliver basis source message =>
    let (_, plane, node) := deliver sha256 (nodeHost v outer) basis source message r.plane r.node
    ⟨plane, node⟩
  | .dispatched peer message delivered weak =>
    { r with plane := dispatched peer message delivered weak r.plane }

def Replica.run (r : Replica ρ) (passes : List (Pass ρ)) : Replica ρ :=
  passes.foldl (Replica.step sha256 v outer) r

end Runs

/-! ## A binding that stays away -/

section Away

variable {ρ : Type} {sha256 : Hash} {v : Verifier} {outer : LaneId → OuterLane ρ}
variable (subject : NodeId) (key : PublicKey)

def Foreign (lane : LaneId) (row : Row) : Prop :=
  lane = .trust → readBinding row ≠ some ⟨subject, key⟩

def Unbound (node : Node ρ) : Prop := node.table.store.bindings subject ≠ some key

/-- The pass does not bring the binding: no row of a delivered trust-lane message is it, and no
adoption outside the plane is of it. -/
def Pass.Spares : Pass ρ → Prop
  | .adopt node adopted => node = subject → adopted ≠ key
  | .deliver _ _ message => ∀ row ∈ message.carried, Foreign subject key message.lane row
  | _ => True

variable {subject key}

variable {table : IdentityTable}

lemma adopt_unbound {next : IdentityTable} {node : NodeId} {adopted : PublicKey}
    {noted : List Family} (h : table.store.bindings subject ≠ some key)
    (hadopt : table.adopt node adopted = .ok (next, noted))
    (hspares : node = subject → adopted ≠ key) : next.store.bindings subject ≠ some key := by
  rcases adoptBinding_eq_ok (IdentityTable.commit_eq_ok hadopt) with heq | heq
  · rw [heq]
    exact h
  · rw [heq]
    by_cases hnode : subject = node
    · subst hnode
      rw [show (_ : IdentityStore).bindings = Function.update _ _ _ from rfl, Function.update_self]
      exact fun hsome => hspares rfl (Option.some.inj hsome)
    · rw [show (_ : IdentityStore).bindings = Function.update _ _ _ from rfl,
        Function.update_of_ne hnode]
      exact h

lemma adoptRows_unbound {rows : List (Row × IdentityBindingV1)} {table : IdentityTable}
    (h : table.store.bindings subject ≠ some key)
    (hrows : ∀ entry ∈ rows, entry.2 ≠ ⟨subject, key⟩) :
    (adoptRows table rows).1.1.store.bindings subject ≠ some key := by
  induction rows generalizing table with
  | nil => exact h
  | cons entry rows ih =>
    obtain ⟨row, binding⟩ := entry
    have hrest := fun e he => hrows e (List.mem_cons_of_mem (row, binding) he)
    unfold adoptRows
    split
    · next next noted hadopt =>
        refine ih (adopt_unbound h hadopt ?_) hrest
        rintro rfl rfl
        exact hrows (row, binding) List.mem_cons_self rfl
    · split
      · exact ih h hrest
      · exact h

lemma trustApply_unbound {rows : List Row} (h : table.store.bindings subject ≠ some key)
    (hrows : ∀ row ∈ rows, readBinding row ≠ some ⟨subject, key⟩) :
    (trustApply table rows).1.1.store.bindings subject ≠ some key := by
  refine adoptRows_unbound h ?_
  intro entry hentry heq
  obtain ⟨row, hrow, hread⟩ := List.mem_filterMap.mp hentry
  obtain ⟨binding, hbinding, rfl⟩ := Option.map_eq_some_iff.mp hread
  exact hrows row hrow (hbinding.trans (congrArg some heq))

lemma trustScan_foreign (h : table.store.bindings subject ≠ some key) :
    ∀ row ∈ trustScan table, readBinding row ≠ some ⟨subject, key⟩ := by
  intro row hrow hread
  obtain ⟨node, -, hlisted⟩ := List.mem_filterMap.mp hrow
  obtain ⟨bound, hbound, hrow⟩ := Option.bind_eq_some_iff.mp hlisted
  have hsame := hread.symm.trans (readBinding_bindingRow hrow)
  obtain ⟨rfl, rfl⟩ := IdentityBindingV1.mk.inj (Option.some.inj hsame)
  exact h hbound

lemma applyRowsNoted_bindings (v : Verifier) (evidence : TombstoneEvidence)
    (table : IdentityTable) (rows : List Row) :
    (applyRowsNoted v evidence table rows).1.1.store.bindings = table.store.bindings := by
  induction rows generalizing table with
  | nil => rfl
  | cons row rows ih =>
    unfold applyRowsNoted
    split
    · exact ih table
    · split
      · rfl
      · next next noted hrow =>
          have hwrites := applyRow_writes (recorded_eq_ok (IdentityTable.commit_eq_ok hrow))
          exact (ih next).trans hwrites.bindings

lemma tombstoneApply_bindings (v : Verifier) (table : IdentityTable) (rows : List Row) :
    (tombstoneApply v table rows).1.1.store.bindings = table.store.bindings := by
  unfold tombstoneApply
  split
  · rfl
  · exact applyRowsNoted_bindings v _ table rows

lemma nodeHost_confined :
    Confined (nodeHost v outer) (Foreign subject key) (Unbound subject key) where
  scan {lane node rows} hnode hscan := by
    intro row hrow hlane
    subst hlane
    obtain rfl := Except.ok.inj hscan
    exact trustScan_foreign hnode row hrow
  apply {lane node rows} hnode hrows := by
    cases lane with
    | descriptors | resources => exact hnode
    | trust => exact trustApply_unbound hnode fun row hrow => hrows row hrow rfl
    | tombstones =>
      show (tombstoneApply v node.table rows).1.1.store.bindings subject ≠ some key
      rw [tombstoneApply_bindings]
      exact hnode
  receive {lane node basis rows kept} hreceive := by
    intro row hrow
    cases lane with
    | descriptors | resources =>
      obtain rfl := Except.ok.inj hreceive
      exact (List.mem_filter.mp hrow).1
    | trust => exact Except.ok.inj hreceive ▸ hrow
    | tombstones =>
      obtain ⟨checkpoint, -, hreceive⟩ := bind_eq_ok.mp hreceive
      obtain rfl := Except.ok.inj hreceive
      exact (List.mem_filter.mp hrow).1

def Away (subject : NodeId) (key : PublicKey) (r : Replica ρ) : Prop :=
  r.plane.Holds (Foreign subject key) ∧ Unbound subject key r.node

lemma collect_unbound {node : Node ρ} (h : Unbound subject key node) :
    Unbound subject key (node.landed node.table.collect) := by
  have hwithin := collectCollectedTombstones_within node.table.members.keys node.table.store
  rcases hwithin.bindings subject with hnone | hsame
  · exact fun hsome => nomatch hnone.symm.trans hsome
  · exact fun hsome => h (hsame.symm.trans hsome)

lemma attempt_unbound {node : Node ρ} {result : Result (IdentityTable × List Family)}
    (h : Unbound subject key node)
    (hresult : ∀ next noted, result = .ok (next, noted) → next.store.bindings subject ≠ some key) :
    Unbound subject key (node.attempt result) := by
  cases result with
  | error e => exact h
  | ok change => exact hresult change.1 change.2 rfl

lemma Away.step {r : Replica ρ} (h : Away subject key r) {pass : Pass ρ}
    (hpass : pass.Spares subject key) : Away subject key (r.step sha256 v outer pass) := by
  obtain ⟨hplane, hnode⟩ := h
  cases pass with
  | install record =>
    refine ⟨hplane, attempt_unbound hnode fun next noted hpersist => ?_⟩
    have hwrites :=
      persistRow_writes v record (recorded_eq_ok (IdentityTable.commit_eq_ok hpersist))
    rw [hwrites.bindings]
    exact hnode
  | collect => exact ⟨hplane, collect_unbound hnode⟩
  | adopt node adopted =>
    exact ⟨hplane, attempt_unbound hnode fun next noted hadopt => adopt_unbound hnode hadopt hpass⟩
  | write rest family => exact ⟨hplane, hnode⟩
  | tick basis alive => exact nodeHost_confined.tick hplane hnode alive
  | deliver basis source message => exact nodeHost_confined.deliver hplane hnode source hpass
  | dispatched peer message delivered weak =>
    exact ⟨dispatched_engines hplane peer message delivered weak, hnode⟩

lemma Away.run {r : Replica ρ} (h : Away subject key r) {passes : List (Pass ρ)}
    (hpasses : ∀ pass ∈ passes, pass.Spares subject key) :
    Away subject key (r.run sha256 v outer passes) :=
  List.foldlRecOn (motive := fun r => Away subject key r) passes _ h
    fun _ hr pass hpass => hr.step (hpasses pass hpass)

end Away

structure Collected {ρ : Type} (subject : NodeId) (key : PublicKey) (before after : Node ρ) :
    Prop where
  departed : peerIsTerminal before.table.store subject = true
  bound : before.table.store.bindings subject = some key
  retired : after.table.store.bindings subject = none

/-! ## A run that revives and one that does not -/

def seat (n : Fin 3) : NodeId := member n

def seatKey (n : Fin 3) : PublicKey := memberKey n

def seatBindings (node : NodeId) : Option PublicKey :=
  if node = seat 0 then some (seatKey 0)
  else if node = seat 1 then some (seatKey 1)
  else if node = seat 2 then some (seatKey 2)
  else none

def IdentityTable.empty : IdentityTable where
  store := .bound fun _ => none
  members := .empty
  covers := by simp [Occupied, IdentityStore.bound]

def seatTable : IdentityTable :=
  IdentityTable.empty.write (.bound seatBindings) [seat 0, seat 1, seat 2] (by
    intro node hnode
    right
    by_contra hother
    simp only [List.mem_cons, List.not_mem_nil, or_false, not_or] at hother
    simp [Occupied, IdentityStore.bound, seatBindings, hother] at hnode)

def emptyLane : OuterLane Unit where
  scan _ := .ok []
  reclaimed _ _ _ := false
  receive _ _ _ := true
  apply node _ := (((), node.notes), .ok [])

def acceptAll : Verifier := ⟨fun _ => true, fun _ _ => true, fun _ _ => true⟩

def seatStamp : Millis := ⟨5, by decide⟩

def seatCleanup : CleanupRecordV1 :=
  ⟨seat 2, seatKey 2, seat 0, seatStamp, sampleSignature⟩

def seatTick : Pass Unit := .tick ⟨0, 0⟩ [seat 1]

def Replica.runSeats (r : Replica Unit) : List (Pass Unit) → Replica Unit :=
  r.run sumHash acceptAll fun _ => emptyLane

def seatDeparture : List (Pass Unit) :=
  [.install (.cleanup seatCleanup), .install (.checkpoint ⟨seatStamp, seat 0⟩)]

def seatStart : Replica Unit := ⟨.new, seatTable, .new, ()⟩

def beforeCollection : Replica Unit := seatStart.runSeats (seatTick :: seatDeparture)

/-- **The next tick revives a collected member**: the peer's engine still holds the binding, and
the repair adopts it again. -/
theorem collected_member_revives :
    Collected (seat 2) (seatKey 2) beforeCollection.node
        (beforeCollection.runSeats [.collect]).node ∧
      (beforeCollection.runSeats [.collect, seatTick]).node.trustedBinding (seat 2) =
        .ok (seatKey 2) := by
  have hrun : peerIsTerminal beforeCollection.node.table.store (seat 2) = true ∧
      beforeCollection.node.table.store.bindings (seat 2) = some (seatKey 2) ∧
      (beforeCollection.runSeats [.collect]).node.table.store.bindings (seat 2) = none ∧
      (beforeCollection.runSeats [.collect, seatTick]).node.trustedBinding (seat 2) =
        .ok (seatKey 2) := by
    decide +kernel
  obtain ⟨hdeparted, hbound, hretired, htrusted⟩ := hrun
  exact ⟨⟨hdeparted, hbound, hretired⟩, htrusted⟩

/-- **A collected member stays dead** in every run whose passes spare its binding, when no trust
engine holds it at the collection. -/
theorem trustedBinding_ne_of_collected {ρ : Type} {sha256 : Hash} {v : Verifier}
    {outer : LaneId → OuterLane ρ} {subject : NodeId} {key : PublicKey} {r : Replica ρ}
    (hcollected : Collected subject key r.node (r.step sha256 v outer .collect).node)
    (hengines : r.plane.Holds (Foreign subject key)) (passes : List (Pass ρ))
    (hpasses : ∀ pass ∈ passes, pass.Spares subject key) :
    ((r.step sha256 v outer .collect).run sha256 v outer passes).node.trustedBinding subject ≠
      .ok key := by
  have hstart : Away subject key (r.step sha256 v outer .collect) :=
    ⟨hengines, fun hbound => nomatch hcollected.retired.symm.trans hbound⟩
  intro htrusted
  exact (hstart.run hpasses).2 (bindings_of_trustedBinding _ htrusted)

def departedUnseen : Replica Unit := seatStart.runSeats seatDeparture

/-- Without a tick before the departure no engine holds the binding, and ticks do not revive. -/
theorem collected_member_stays_dead_unseen :
    ((departedUnseen.step sumHash acceptAll (fun _ => emptyLane) .collect).run sumHash acceptAll
      (fun _ => emptyLane) [seatTick, seatTick]).node.trustedBinding (seat 2) ≠
        .ok (seatKey 2) := by
  have hrun : peerIsTerminal departedUnseen.node.table.store (seat 2) = true ∧
      departedUnseen.node.table.store.bindings (seat 2) = some (seatKey 2) ∧
      (departedUnseen.step sumHash acceptAll (fun _ => emptyLane)
        .collect).node.table.store.bindings (seat 2) = none := by
    decide +kernel
  have hengines : departedUnseen.plane.Holds (Foreign (seat 2) (seatKey 2)) :=
    fun entry hentry => absurd hentry (OrdMap.not_mem_empty entry)
  exact trustedBinding_ne_of_collected ⟨hrun.1, hrun.2.1, hrun.2.2⟩ hengines _
    (by simp [seatTick, Pass.Spares])

end Radiata.Membership
