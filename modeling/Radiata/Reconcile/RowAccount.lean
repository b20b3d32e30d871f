import Radiata.Reconcile.PlaneRows

/-!
# What a scanning pass does with the engines' rows

A pass feeds the scanned rows to the engines, removes the engine rows that the store holds
under other content or has reclaimed, and collects the rows whose key the store lacks.  Both
decisions compare rows by one byte string, the key, a zero byte and the content, which two
different rows can share.  A row is accounted for exactly when no such coincidence meets it.
-/

namespace Radiata.Reconcile

open Lib Identity Storage

/-! ## Rows of one engine -/

namespace Engine

variable {sha256 : Hash} {e : Engine}

lemma mem_rows {row : Row} : row ∈ e.rows ↔ ∃ digest, (digest, row) ∈ e.index.iter := by
  simp [rows]

lemma drive_index_of_stores {input : Drive} (hinput : (Op.drive input).stores = []) :
    (e.drive sha256 input).2.index = e.index := by
  obtain ⟨e₁, hprepared, hend, -⟩ := e.drive_index sha256 input
  rw [hend]
  cases hprepared with
  | message hintake =>
    refine hintake.index_keeps (P := fun ix => ix = e.index) e.opened_index ?_
    intro ix digest row hrow
    rw [show Message.carried _ = [] from hinput] at hrow
    exact absurd hrow List.not_mem_nil
  | localChange | localChangeEager | rootExchange | drain => exact e.opened_index

variable {entry : UInt64 × Row}

lemma mem_iter_removeRow {key content : List UInt8} :
    entry ∈ (e.removeRow sha256 key content).2.index.iter ↔
      entry ∈ e.index.iter ∧ itemDigest sha256 key content ≠ .ok entry.1 := by
  unfold removeRow
  cases itemDigest sha256 key content with
  | error err => simp
  | ok digest =>
    have hremoved : entry ∈ (e.index.remove digest).2.iter ↔
        entry ∈ e.index.iter ∧ (.ok digest : Result UInt64) ≠ .ok entry.1 := by
      rw [LiveIndex.mem_iter_remove]
      simp [eq_comm]
    dsimp only
    cases (e.index.remove digest).1 with
    | none => exact hremoved
    | some removed =>
      show entry ∈ (markDirty _ digest).index.iter ↔ _
      rw [markDirty_index]
      exact hremoved

lemma mem_iter_removeRows {rows : List Row} :
    entry ∈ (rows.foldl (fun e row => (e.removeRow sha256 row.key row.content).2) e).index.iter ↔
      entry ∈ e.index.iter ∧ ∀ row ∈ rows, itemDigest sha256 row.key row.content ≠ .ok entry.1 := by
  induction rows generalizing e with
  | nil => simp
  | cons row rows ih =>
    rw [List.foldl_cons, ih, mem_iter_removeRow, List.forall_mem_cons, and_assoc]

lemma mem_rows_prune (hkeyed : Keyed sha256 e.index) (p : Row → Bool) {row : Row} :
    row ∈ ((e.rows.filter p).foldl (fun e row => (e.removeRow sha256 row.key row.content).2)
      e).rows ↔
      row ∈ e.rows ∧ p row = false := by
  have hdigest {digest : UInt64} {row : Row} (h : (digest, row) ∈ e.index.iter) :
      itemDigest sha256 row.key row.content = .ok digest := hkeyed (digest, row) h
  rw [mem_rows]
  constructor
  · rintro ⟨digest, hmem⟩
    obtain ⟨hmem, hkept⟩ := mem_iter_removeRows.mp hmem
    have hrow : row ∈ e.rows := mem_rows.mpr ⟨digest, hmem⟩
    refine ⟨hrow, ?_⟩
    by_contra hp
    exact hkept row (List.mem_filter.mpr ⟨hrow, Bool.eq_true_of_not_eq_false hp⟩) (hdigest hmem)
  · rintro ⟨hrow, hp⟩
    obtain ⟨digest, hmem⟩ := mem_rows.mp hrow
    refine ⟨digest, mem_iter_removeRows.mpr ⟨hmem, fun other hother heq => ?_⟩⟩
    obtain ⟨hrow', hp'⟩ := List.mem_filter.mp hother
    obtain ⟨digest', hmem'⟩ := mem_rows.mp hrow'
    obtain rfl : digest' = digest := Except.ok.inj ((hdigest hmem').symm.trans heq)
    have hsame : other = row := e.index.iter_ascending.eq_of_mem_of_mem hmem' hmem
    rw [hsame, hp] at hp'
    cases hp'

end Engine

/-! ## Rows of one peer -/

variable {state : PeerState} {lane : LaneId}

namespace PeerState

variable {sha256 : Hash} {lane' : LaneId}

lemma rows_engine (state : PeerState) (lane : LaneId) :
    (state.engine lane).rows = state.rows lane := by
  unfold engine rows
  cases state.engines lane with
  | none => exact Engine.rows_new lane
  | some e => rfl

lemma rows_modify_self (f : Engine → Engine) :
    (state.modify lane f).rows lane = (f (state.engine lane)).rows := by
  simp [rows, modify_engines]

lemma rows_modify_of_ne (h : lane' ≠ lane) (f : Engine → Engine) :
    (state.modify lane f).rows lane' = state.rows lane' := by
  simp [rows, modify_engines, Function.update_of_ne h]

lemma rows_drive {input : Drive} (hinput : (Op.drive input).stores = []) :
    (state.drive sha256 lane input).2.rows lane' = state.rows lane' := by
  show (state.modify lane fun e => (e.drive sha256 input).2).rows lane' = _
  by_cases h : lane' = lane
  · subst h
    rw [rows_modify_self, Engine.rows, Engine.drive_index_of_stores hinput, ← rows_engine]
    rfl
  · exact rows_modify_of_ne h _

lemma rows_driveAll {input : Drive} (hinput : (Op.drive input).stores = []) (lanes : List LaneId) :
    (state.driveAll sha256 input lanes).2.rows lane' = state.rows lane' := by
  unfold driveAll
  refine List.foldlRecOn (motive := fun acc : List Message × PeerState =>
    acc.2.rows lane' = state.rows lane') lanes _ rfl ?_
  exact fun acc hacc lane _ => (rows_drive hinput).trans hacc

def Keyed (sha256 : Hash) (state : PeerState) : Prop :=
  state.Engines fun _ e => Engine.Keyed sha256 e.index

lemma mem_rows_pruneRows (h : state.Keyed sha256) (p : Row → Bool) {row : Row} :
    row ∈ (state.pruneRows sha256 lane p).rows lane ↔ row ∈ state.rows lane ∧ p row = false := by
  unfold pruneRows
  rw [rows_modify_self, Engine.mem_rows_prune (h.engine (keyed_invariant sha256) lane), rows_engine]

end PeerState

/-! ## Rows through a pass -/

variable {row : Row} {peer : NodeId}

section Pass

variable {σ : Type} {sha256 : Hash} {host : Host σ} {basis : SweptBasis} {scan : LaneScan}
  {plan : Finset LaneId} {checkpoint : Option Millis} {view : List (List UInt8) × List (List UInt8)}
  {plane : PlaneState}

lemma rows_announce (held : List LaneId) :
    (announce sha256 plan held state).2.rows lane = state.rows lane := by
  unfold announce
  split_ifs
  · exact PeerState.rows_driveAll rfl _
  · exact PeerState.rows_driveAll rfl _
  · exact PeerState.rows_driveAll rfl _

lemma rows_pruneLane_of_ne {lane' : LaneId} (h : lane ≠ lane') :
    (pruneLane sha256 host basis scan checkpoint state lane').rows lane = state.rows lane := by
  unfold pruneLane
  split
  · rfl
  · exact PeerState.rows_modify_of_ne h _

lemma mem_rows_pruneLane (h : state.Keyed sha256) (hview : listed scan lane = some view) :
    row ∈ (pruneLane sha256 host basis scan checkpoint state lane).rows lane ↔
      row ∈ state.rows lane ∧ prunable host basis checkpoint lane view row = false := by
  rw [pruneLane, hview]
  exact PeerState.mem_rows_pruneRows h _

lemma rows_pruneLanes_of_notMem {lanes : List LaneId} (h : lane ∉ lanes) :
    (lanes.foldl (pruneLane sha256 host basis scan checkpoint) state).rows lane =
      state.rows lane := by
  induction lanes generalizing state with
  | nil => rfl
  | cons other lanes ih =>
    rw [List.mem_cons, not_or] at h
    rw [List.foldl_cons, ih h.2, rows_pruneLane_of_ne h.1]

lemma mem_rows_pruneLanes {lanes : List LaneId} (hlanes : lanes.Nodup) (hlane : lane ∈ lanes)
    (h : state.Keyed sha256) (hview : listed scan lane = some view) :
    row ∈ (lanes.foldl (pruneLane sha256 host basis scan checkpoint) state).rows lane ↔
      row ∈ state.rows lane ∧ prunable host basis checkpoint lane view row = false := by
  induction lanes generalizing state with
  | nil => cases hlane
  | cons other lanes ih =>
    obtain ⟨hnot, hlanes⟩ := List.nodup_cons.mp hlanes
    rw [List.foldl_cons]
    by_cases heq : lane = other
    · subst heq
      rw [rows_pruneLanes_of_notMem hnot, mem_rows_pruneLane h hview]
    · rw [ih hlanes (List.mem_of_ne_of_mem heq hlane)
        (pruneLane_engines (keyed_invariant sha256) h other), rows_pruneLane_of_ne heq]

lemma get?_drivePeer_of_ne {other : NodeId} (h : peer ≠ other) :
    (drivePeer sha256 host basis scan plan checkpoint plane other).2.peers.get? peer =
      plane.peers.get? peer :=
  OrdMap.get?_insert_of_ne h

lemma drivePeers_cons (peer : NodeId) (alive : List NodeId) :
    (drivePeers sha256 host basis scan plan checkpoint plane (peer :: alive)).2 =
      (drivePeers sha256 host basis scan plan checkpoint
        (drivePeer sha256 host basis scan plan checkpoint plane peer).2 alive).2 := by
  rw [drivePeers_snd, drivePeers_snd, List.foldl_cons]

lemma get?_drivePeers_of_notMem {alive : List NodeId} (h : peer ∉ alive) :
    (drivePeers sha256 host basis scan plan checkpoint plane alive).2.peers.get? peer =
      plane.peers.get? peer := by
  induction alive generalizing plane with
  | nil => rfl
  | cons other alive ih =>
    rw [List.mem_cons, not_or] at h
    rw [drivePeers_cons, ih h.2, get?_drivePeer_of_ne h.1]

lemma drivePeer_keyed (h : plane.Engines fun _ e => Engine.Keyed sha256 e.index) (peer : NodeId) :
    (drivePeer sha256 host basis scan plan checkpoint plane peer).2.Engines
      fun _ e => Engine.Keyed sha256 e.index :=
  drivePeer_engines (keyed_invariant sha256) (fun _ _ _ _ => trivial) h peer

/-- What the engine of a peer holds when the pass comes to prune it: its rows and the scanned
ones.  The drives in between leave the rows alone. -/
def fedRows (sha256 : Hash) (scan : LaneScan) (plane : PlaneState) (peer : NodeId) (lane : LaneId) :
    List Row :=
  (feed sha256 scan ((plane.peers.get? peer).getD .fresh)).rows lane

lemma mem_rows_drivePeer (h : plane.Engines fun _ e => Engine.Keyed sha256 e.index)
    (hlane : lane ∈ plan) (hview : listed scan lane = some view) (peer : NodeId) :
    row ∈ (((drivePeer sha256 host basis scan plan checkpoint plane peer).2.peers.get? peer).getD
        .fresh).rows lane ↔
      row ∈ fedRows sha256 scan plane peer lane ∧
        prunable host basis checkpoint lane view row = false := by
  have hlanes : (LaneId.all.filter (· ∈ plan)).Nodup := List.Nodup.filter _ (by decide)
  have hmem : lane ∈ LaneId.all.filter (· ∈ plan) :=
    List.mem_filter.mpr ⟨by cases lane <;> decide, decide_eq_true hlane⟩
  have hfed : (feed sha256 scan ((plane.peers.get? peer).getD .fresh)).Keyed sha256 :=
    feed_engines (keyed_invariant sha256) (fun _ _ _ _ => trivial) (h.getD peer)
  unfold drivePeer
  dsimp only
  rw [OrdMap.get?_insert_self, Option.getD_some,
    mem_rows_pruneLanes hlanes hmem (announce_engines (keyed_invariant sha256) hfed _) hview,
    rows_announce]
  exact Iff.rfl

/-- **A pass over distinct peers** keeps of each one's rows those that are not prunable. -/
theorem mem_rows_drivePeers {alive : List NodeId} (halive : alive.Nodup)
    (h : plane.Engines fun _ e => Engine.Keyed sha256 e.index) (hlane : lane ∈ plan)
    (hview : listed scan lane = some view) (hpeer : peer ∈ alive) :
    row ∈ (((drivePeers sha256 host basis scan plan checkpoint plane alive).2.peers.get? peer).getD
        .fresh).rows lane ↔
      row ∈ fedRows sha256 scan plane peer lane ∧
        prunable host basis checkpoint lane view row = false := by
  induction alive generalizing plane with
  | nil => cases hpeer
  | cons other alive ih =>
    obtain ⟨hnot, halive⟩ := List.nodup_cons.mp halive
    rw [drivePeers_cons]
    by_cases heq : peer = other
    · subst heq
      rw [get?_drivePeers_of_notMem hnot, mem_rows_drivePeer h hlane hview]
    · rw [ih halive (drivePeer_keyed h other) (List.mem_of_ne_of_mem heq hpeer), fedRows, fedRows,
        get?_drivePeer_of_ne heq]

end Pass

/-! ## Passes -/

structure ScanPass where
  basis : SweptBasis
  epoch : ℕ
  plan : Finset LaneId
  rows : LaneId → List Row
  checkpoint : Option Millis
  alive : List NodeId
  alive_nodup : alive.Nodup

namespace ScanPass

variable (pass : ScanPass)

def scan : LaneScan := (LaneId.all.filter (· ∈ pass.plan)).map fun lane => (lane, pass.rows lane)

def view (lane : LaneId) : List (List UInt8) × List (List UInt8) :=
  ((pass.rows lane).map rowIdentity, (pass.rows lane).map Row.key)

variable {pass}

lemma listed_scan {lane : LaneId} (h : lane ∈ pass.plan) :
    listed pass.scan lane = some (pass.view lane) := by
  have hmem : lane ∈ LaneId.all.filter (· ∈ pass.plan) :=
    List.mem_filter.mpr ⟨by cases lane <;> decide, decide_eq_true h⟩
  have hfind : (LaneId.all.filter (· ∈ pass.plan)).find? (fun other => decide (other = lane)) =
      some lane := by
    cases hfind :
      (LaneId.all.filter (· ∈ pass.plan)).find? (fun other => decide (other = lane)) with
    | none => exact absurd (List.find?_eq_none.mp hfind lane hmem) (by simp)
    | some other =>
      have heq : other = lane := by simpa using List.find?_some hfind
      rw [heq]
  rw [listed, scan, List.find?_map]
  show ((List.find? (fun other => decide (other = lane)) _).map _).map _ = _
  rw [hfind]
  rfl

variable {σ : Type} (sha256 : Hash) (host : Host σ) (pass) (plane : PlaneState)

def after : PlaneState :=
  passDriven sha256 host pass.basis pass.epoch pass.scan pass.plan pass.checkpoint plane pass.alive

def repair : LaneScan :=
  (tickPass sha256 host pass.basis pass.epoch pass.scan pass.plan pass.checkpoint plane
    pass.alive).1.2

def held (peer : NodeId) (lane : LaneId) : List Row := fedRows sha256 pass.scan plane peer lane

def Pruned (peer : NodeId) (lane : LaneId) (row : Row) : Prop :=
  row ∈ pass.held sha256 plane peer lane ∧
    row ∉ (((pass.after sha256 host plane).peers.get? peer).getD .fresh).rows lane

variable (lane : LaneId) (row : Row)

def Superseded : Prop :=
  ∃ other ∈ pass.rows lane, other.key = row.key ∧ other.content ≠ row.content

def Reclaimed : Prop :=
  (host.policy lane).reclaimed (((pass.rows lane).map Row.key).contains row.key) row pass.basis
    pass.checkpoint = true

def Repaired : Prop :=
  ∃ rows, (lane, rows) ∈ pass.repair sha256 host plane ∧ row ∈ rows

/-- Some engine of the lane holds the row: a driven peer's, with what the scan fed it, or one that
the pass does not drive. -/
def Holds : Prop :=
  (∃ peer ∈ pass.alive, row ∈ pass.held sha256 plane peer lane) ∨
    ∃ peer ∉ pass.alive, row ∈ ((plane.peers.get? peer).getD .fresh).rows lane

/-- The row is left for repair: the scan lists neither it nor its key, and it is not reclaimed. -/
def LeftOver : Prop :=
  row ∉ pass.rows lane ∧ (∀ other ∈ pass.rows lane, other.key ≠ row.key) ∧
    ¬pass.Reclaimed host lane row

end ScanPass

def ExactlyOne (a b c : Prop) : Prop := a ∧ ¬b ∧ ¬c ∨ ¬a ∧ b ∧ ¬c ∨ ¬a ∧ ¬b ∧ c

namespace ScanPass

section Statement

variable {σ : Type} (sha256 : Hash) (host : Host σ) (pass : ScanPass) (plane : PlaneState)

/-- **Every engine row is accounted for.** -/
structure Accounted : Prop where
  one : ∀ lane ∈ pass.plan, ∀ peer ∈ pass.alive, ∀ row ∈ pass.held sha256 plane peer lane,
    ExactlyOne (row ∈ pass.rows lane)
      (pass.Pruned sha256 host plane peer lane row ∧
        (pass.Superseded lane row ∨ pass.Reclaimed host lane row))
      (pass.Repaired sha256 host plane lane row)
  left : ∀ lane ∈ pass.plan, ∀ row, pass.Holds sha256 plane lane row →
    pass.LeftOver host lane row → pass.Repaired sha256 host plane lane row
  reason : ∀ lane ∈ pass.plan, ∀ peer ∈ pass.alive, ∀ row,
    pass.Pruned sha256 host plane peer lane row →
      pass.Superseded lane row ∨ pass.Reclaimed host lane row
  listed : ∀ lane ∈ pass.plan, ∀ row ∈ pass.rows lane,
    (∀ peer ∈ pass.alive, ¬pass.Pruned sha256 host plane peer lane row) ∧
      ¬pass.Repaired sha256 host plane lane row
  pending : ∀ lane ∈ pass.plan, lane ∈ (pass.after sha256 host plane).repairPending ↔
    ∃ row, pass.Repaired sha256 host plane lane row

def candidates (lane : LaneId) : List Row :=
  repairCandidates host pass.basis pass.checkpoint (pass.after sha256 host plane) lane
    (pass.view lane)

/-- **No row is mistaken for another**: an unlisted row does not have the identity of a listed
one, and no two different rows left for repair share an identity. -/
structure Distinguished : Prop where
  unlisted : ∀ lane ∈ pass.plan, ∀ peer ∈ pass.alive, ∀ row ∈ pass.held sha256 plane peer lane,
    row ∉ pass.rows lane → ∀ other ∈ pass.rows lane, rowIdentity other ≠ rowIdentity row
  left_unlisted : ∀ lane ∈ pass.plan, ∀ row, pass.Holds sha256 plane lane row →
    pass.LeftOver host lane row → ∀ other ∈ pass.rows lane, rowIdentity other ≠ rowIdentity row
  left : ∀ lane ∈ pass.plan, ∀ row, pass.Holds sha256 plane lane row →
    pass.LeftOver host lane row → ∀ other, pass.Holds sha256 plane lane other →
      pass.LeftOver host lane other → rowIdentity other = rowIdentity row → other = row

end Statement

/-! ## What the pass computes -/

section Facts

variable {σ : Type} {sha256 : Hash} {host : Host σ} {pass : ScanPass} {plane : PlaneState}

lemma after_peers : (pass.after sha256 host plane).peers =
    (drivePeers sha256 host pass.basis pass.scan pass.plan pass.checkpoint
      (claimEpoch pass.plan pass.epoch plane) pass.alive).2.peers := by
  have hheld (plane : PlaneState) (holds : List (LaneId × NodeId)) :
      (holds.foldl (fun p hold => p.holdRootExchange hold.1 hold.2) plane).peers = plane.peers :=
    List.foldlRecOn (motive := fun p => PlaneState.peers p = plane.peers) holds _ rfl
      fun _ hp _ _ => hp
  unfold after passDriven
  dsimp only
  split_ifs
  · exact hheld _ _
  · exact hheld _ _

lemma repair_eq : pass.repair sha256 host plane =
    ((LaneId.all.filter (· ∈ pass.plan)).map fun lane =>
      (lane, repairRows host pass.basis pass.scan pass.checkpoint (pass.after sha256 host plane)
        lane)).filter fun entry => !entry.2.isEmpty := by
  unfold repair after passDriven tickPass
  dsimp only
  split_ifs with hplan
  · simp [hplan]
  · rfl

lemma mem_repair {rows : List Row} : (lane, rows) ∈ pass.repair sha256 host plane ↔
    lane ∈ pass.plan ∧ rows ≠ [] ∧ rows = repairRows host pass.basis pass.scan pass.checkpoint
      (pass.after sha256 host plane) lane := by
  have hall : lane ∈ LaneId.all := by cases lane <;> decide
  rw [repair_eq, List.mem_filter, List.mem_map]
  constructor
  · rintro ⟨⟨other, hother, heq⟩, hrows⟩
    obtain ⟨rfl, rfl⟩ := Prod.mk.inj heq
    exact ⟨of_decide_eq_true (List.mem_filter.mp hother).2, by simpa using hrows, rfl⟩
  · rintro ⟨hlane, hrows, rfl⟩
    exact ⟨⟨lane, List.mem_filter.mpr ⟨hall, decide_eq_true hlane⟩, rfl⟩, by simpa using hrows⟩

lemma repaired_iff (hlane : lane ∈ pass.plan) : pass.Repaired sha256 host plane lane row ↔
    (pass.candidates sha256 host plane lane).find?
      (fun other => rowIdentity other = rowIdentity row) = some row := by
  rw [candidates, ← mem_repairRows_iff (listed_scan hlane)]
  constructor
  · rintro ⟨rows, hmem, hrow⟩
    obtain ⟨-, -, rfl⟩ := mem_repair.mp hmem
    exact hrow
  · intro hrow
    exact ⟨_, mem_repair.mpr ⟨hlane, List.ne_nil_of_mem hrow, rfl⟩, hrow⟩

lemma mem_candidates : row ∈ pass.candidates sha256 host plane lane ↔
    (∃ entry ∈ (pass.after sha256 host plane).peers, row ∈ entry.2.rows lane) ∧
      repairable host pass.basis pass.checkpoint lane (pass.view lane) row = true :=
  mem_repairCandidates

lemma mem_repairPending (hlane : lane ∈ pass.plan) :
    lane ∈ (pass.after sha256 host plane).repairPending ↔
      ∃ rows, (lane, rows) ∈ pass.repair sha256 host plane := by
  have hplan : pass.plan ≠ ∅ := Finset.ne_empty_of_mem hlane
  have hindex (p : PlaneState) :
      lane ∈ (repairIndex host pass.basis pass.scan pass.plan pass.checkpoint p).2.repairPending ↔
        ∃ rows, (lane, rows) ∈
          (repairIndex host pass.basis pass.scan pass.plan pass.checkpoint p).1 := by
    simp [repairIndex, hlane]
  unfold after repair passDriven tickPass
  dsimp only
  rw [if_neg hplan]
  exact hindex _

def identityListed (pass : ScanPass) (lane : LaneId) (row : Row) : Prop :=
  ∃ other ∈ pass.rows lane, rowIdentity other = rowIdentity row

lemma prunable_iff : prunable host pass.basis pass.checkpoint lane (pass.view lane) row = true ↔
    ¬pass.identityListed lane row ∧ (pass.Superseded lane row ∨ pass.Reclaimed host lane row) := by
  have hkey : ((pass.rows lane).map Row.key).contains row.key = true ↔
      ∃ other ∈ pass.rows lane, other.key = row.key := by simp
  have hident : ((pass.rows lane).map rowIdentity).contains (rowIdentity row) = true ↔
      pass.identityListed lane row := by simp [identityListed]
  have hsuper (h : ¬pass.identityListed lane row) :
      (∃ other ∈ pass.rows lane, other.key = row.key) ↔ pass.Superseded lane row := by
    constructor
    · rintro ⟨other, hother, hkey⟩
      refine ⟨other, hother, hkey, fun hcontent => h ⟨other, hother, ?_⟩⟩
      rw [rowIdentity, rowIdentity, hkey, hcontent]
    · rintro ⟨other, hother, hkey, -⟩
      exact ⟨other, hother, hkey⟩
  unfold prunable Reclaimed view
  dsimp only
  rw [Bool.and_eq_true, Bool.or_eq_true, Bool.not_eq_true', ← Bool.not_eq_true, hident, hkey]
  constructor
  · rintro ⟨hid, h⟩
    exact ⟨hid, h.symm.imp_left (hsuper hid).mp⟩
  · rintro ⟨hid, h⟩
    exact ⟨hid, (h.imp_left (hsuper hid).mpr).symm⟩

lemma repairable_iff : repairable host pass.basis pass.checkpoint lane (pass.view lane) row = true ↔
    ¬pass.identityListed lane row ∧
      prunable host pass.basis pass.checkpoint lane (pass.view lane) row = false := by
  have hident : ((pass.rows lane).map rowIdentity).contains (rowIdentity row) = true ↔
      pass.identityListed lane row := by simp [identityListed]
  rw [← hident]
  unfold repairable prunable view
  dsimp only
  cases ((pass.rows lane).map rowIdentity).contains (rowIdentity row) <;>
  cases (host.policy lane).reclaimed (((pass.rows lane).map Row.key).contains row.key) row
    pass.basis
    pass.checkpoint <;>
  cases ((pass.rows lane).map Row.key).contains row.key <;> simp

lemma leftOver_of_repairable
    (h : repairable host pass.basis pass.checkpoint lane (pass.view lane) row = true) :
    pass.LeftOver host lane row ∧ ¬pass.identityListed lane row := by
  obtain ⟨hid, hprune⟩ := repairable_iff.mp h
  have hkept : ¬(pass.Superseded lane row ∨ pass.Reclaimed host lane row) := fun hreason =>
    absurd (prunable_iff.mpr ⟨hid, hreason⟩) (ne_true_of_eq_false hprune)
  refine ⟨⟨fun hrow => hid ⟨row, hrow, rfl⟩, fun other hother hkey => ?_, hkept ∘ .inr⟩, hid⟩
  refine hkept (.inl ⟨other, hother, hkey, fun hcontent => hid ⟨other, hother, ?_⟩⟩)
  rw [rowIdentity, rowIdentity, hkey, hcontent]

lemma repairable_of_leftOver (h : pass.LeftOver host lane row)
    (hid : ¬pass.identityListed lane row) :
    repairable host pass.basis pass.checkpoint lane (pass.view lane) row = true := by
  refine repairable_iff.mpr ⟨hid, Bool.eq_false_of_not_eq_true fun hprune => ?_⟩
  rcases (prunable_iff.mp hprune).2 with ⟨other, hother, hkey, -⟩ | hreclaimed
  · exact h.2.1 other hother hkey
  · exact h.2.2 hreclaimed

lemma identityListed_of_mem (h : row ∈ pass.rows lane) : pass.identityListed lane row :=
  ⟨row, h, rfl⟩

end Facts

/-! ## The account -/

section Account

variable {σ : Type} {sha256 : Hash} {host : Host σ} {pass : ScanPass} {plane : PlaneState}
  (hkeyed : plane.Engines fun _ e => Engine.Keyed sha256 e.index)
include hkeyed

section

variable (hlane : lane ∈ pass.plan) (hpeer : peer ∈ pass.alive)
include hlane hpeer

lemma mem_rows_after :
    row ∈ (((pass.after sha256 host plane).peers.get? peer).getD .fresh).rows lane ↔
      row ∈ pass.held sha256 plane peer lane ∧
        prunable host pass.basis pass.checkpoint lane (pass.view lane) row = false := by
  have hclaimed : (claimEpoch pass.plan pass.epoch plane).Engines
      fun _ e => Engine.Keyed sha256 e.index := hkeyed
  rw [after_peers, mem_rows_drivePeers pass.alive_nodup hclaimed hlane (listed_scan hlane) hpeer]
  exact Iff.rfl

lemma pruned_iff : pass.Pruned sha256 host plane peer lane row ↔
      row ∈ pass.held sha256 plane peer lane ∧
        prunable host pass.basis pass.checkpoint lane (pass.view lane) row = true := by
  rw [Pruned, mem_rows_after hkeyed hlane hpeer, not_and, Bool.not_eq_false]
  exact ⟨fun ⟨hheld, h⟩ => ⟨hheld, h hheld⟩, fun ⟨hheld, h⟩ => ⟨hheld, fun _ => h⟩⟩

lemma reason_of_pruned (h : pass.Pruned sha256 host plane peer lane row) :
    pass.Superseded lane row ∨ pass.Reclaimed host lane row :=
  (prunable_iff.mp ((pruned_iff hkeyed hlane hpeer).mp h).2).2

lemma not_pruned_of_identityListed (h : pass.identityListed lane row) :
    ¬pass.Pruned sha256 host plane peer lane row :=
  fun hpruned => (prunable_iff.mp ((pruned_iff hkeyed hlane hpeer).mp hpruned).2).1 h

end

omit hkeyed in
lemma repairable_of_repaired (hlane : lane ∈ pass.plan)
    (h : pass.Repaired sha256 host plane lane row) :
    repairable host pass.basis pass.checkpoint lane (pass.view lane) row = true :=
  (mem_candidates.mp (List.mem_of_find?_eq_some ((repaired_iff hlane).mp h))).2

omit hkeyed in
lemma not_repaired_of_identityListed (hlane : lane ∈ pass.plan)
    (h : pass.identityListed lane row) : ¬pass.Repaired sha256 host plane lane row :=
  fun hrepaired => (repairable_iff.mp (repairable_of_repaired hlane hrepaired)).1 h

lemma mem_candidates_iff (hlane : lane ∈ pass.plan) :
    row ∈ pass.candidates sha256 host plane lane ↔ pass.Holds sha256 plane lane row ∧
      repairable host pass.basis pass.checkpoint lane (pass.view lane) row = true := by
  rw [mem_candidates]
  refine and_congr_left fun hrepair => ?_
  have hkept := (repairable_iff.mp hrepair).2
  have hother {peer : NodeId} (hpeer : peer ∉ pass.alive) :
      (pass.after sha256 host plane).peers.get? peer = plane.peers.get? peer := by
    rw [after_peers, get?_drivePeers_of_notMem hpeer]
    rfl
  -- an engine of the plane after the pass, by its peer
  have hentry : (∃ entry ∈ (pass.after sha256 host plane).peers, row ∈ entry.2.rows lane) ↔
      ∃ peer, row ∈ (((pass.after sha256 host plane).peers.get? peer).getD .fresh).rows lane := by
    constructor
    · rintro ⟨entry, hentry, hrow⟩
      exact ⟨entry.1, by rwa [OrdMap.get?_eq_some.mpr hentry]⟩
    · rintro ⟨peer, hrow⟩
      cases hget : (pass.after sha256 host plane).peers.get? peer with
      | none =>
        rw [hget] at hrow
        exact absurd hrow List.not_mem_nil
      | some state =>
        rw [hget] at hrow
        exact ⟨(peer, state), OrdMap.get?_eq_some.mp hget, hrow⟩
  rw [hentry]
  constructor
  · rintro ⟨peer, hrow⟩
    by_cases hpeer : peer ∈ pass.alive
    · exact .inl ⟨peer, hpeer, ((mem_rows_after hkeyed hlane hpeer).mp hrow).1⟩
    · exact .inr ⟨peer, hpeer, by rwa [hother hpeer] at hrow⟩
  · rintro (⟨peer, hpeer, hrow⟩ | ⟨peer, hpeer, hrow⟩)
    · exact ⟨peer, (mem_rows_after hkeyed hlane hpeer).mpr ⟨hrow, hkept⟩⟩
    · exact ⟨peer, by rwa [hother hpeer]⟩

/-- A row left for repair whose identity is its own is repaired. -/
lemma repaired_of_distinguished (h : pass.Distinguished sha256 host plane)
    (hlane : lane ∈ pass.plan) (hholds : pass.Holds sha256 plane lane row)
    (hleft : pass.LeftOver host lane row) : pass.Repaired sha256 host plane lane row := by
  have hid : ¬pass.identityListed lane row := fun ⟨other, hother, heq⟩ =>
    h.left_unlisted lane hlane row hholds hleft other hother heq
  have hmem := (mem_candidates_iff hkeyed hlane).mpr ⟨hholds, repairable_of_leftOver hleft hid⟩
  refine (repaired_iff hlane).mpr ?_
  cases hfind : (pass.candidates sha256 host plane lane).find?
      (fun other => rowIdentity other = rowIdentity row) with
  | none => exact absurd (List.find?_eq_none.mp hfind row hmem) (by simp)
  | some first =>
    obtain ⟨hholds', hrepair⟩ :=
      (mem_candidates_iff hkeyed hlane).mp (List.mem_of_find?_eq_some hfind)
    have hsame : rowIdentity first = rowIdentity row := by simpa using List.find?_some hfind
    rw [h.left lane hlane row hholds hleft first hholds' (leftOver_of_repairable hrepair).1 hsame]

lemma one_of_distinguished (h : pass.Distinguished sha256 host plane) (hlane : lane ∈ pass.plan)
    (hpeer : peer ∈ pass.alive) (hheld : row ∈ pass.held sha256 plane peer lane) :
    ExactlyOne (row ∈ pass.rows lane)
      (pass.Pruned sha256 host plane peer lane row ∧
        (pass.Superseded lane row ∨ pass.Reclaimed host lane row))
      (pass.Repaired sha256 host plane lane row) := by
  by_cases hlisted : row ∈ pass.rows lane
  · have hid := identityListed_of_mem hlisted
    exact .inl ⟨hlisted, fun hpruned => not_pruned_of_identityListed hkeyed hlane hpeer hid
      hpruned.1,
      not_repaired_of_identityListed hlane hid⟩
  have hid : ¬pass.identityListed lane row := by
    rintro ⟨other, hother, heq⟩
    exact h.unlisted lane hlane peer hpeer row hheld hlisted other hother heq
  cases hprune : prunable host pass.basis pass.checkpoint lane (pass.view lane) row with
  | true =>
    have hpruned := (pruned_iff hkeyed hlane hpeer).mpr ⟨hheld, hprune⟩
    refine .inr (.inl ⟨hlisted, ⟨hpruned, (prunable_iff.mp hprune).2⟩, fun hrepaired => ?_⟩)
    rw [(repairable_iff.mp (repairable_of_repaired hlane hrepaired)).2] at hprune
    cases hprune
  | false =>
    have hleft := (leftOver_of_repairable (repairable_iff.mpr ⟨hid, hprune⟩)).1
    refine .inr (.inr ⟨hlisted, fun hpruned => ?_,
      repaired_of_distinguished hkeyed h hlane (.inl ⟨peer, hpeer, hheld⟩) hleft⟩)
    rw [((pruned_iff hkeyed hlane hpeer).mp hpruned.1).2] at hprune
    cases hprune

lemma accounted_iff : pass.Accounted sha256 host plane ↔ pass.Distinguished sha256 host plane := by
  constructor
  · intro h
    refine ⟨fun lane hlane peer hpeer row hheld hnot other hother heq => ?_,
      fun lane hlane row hholds hleft other hother heq => ?_,
      fun lane hlane row hholds hleft other hholds' hleft' heq => ?_⟩
    · -- the shared identity keeps the row from the prune and from the repair
      have hid : pass.identityListed lane row := ⟨other, hother, heq⟩
      rcases h.one lane hlane peer hpeer row hheld with ⟨hlisted, -⟩ | ⟨-, hpruned, -⟩ | ⟨-, -,
        hrep⟩
      · exact hnot hlisted
      · exact not_pruned_of_identityListed hkeyed hlane hpeer hid hpruned.1
      · exact not_repaired_of_identityListed hlane hid hrep
    · exact not_repaired_of_identityListed hlane ⟨other, hother, heq⟩
        (h.left lane hlane row hholds hleft)
    · -- the repair set keeps one row of an identity
      have hrow := (repaired_iff hlane).mp (h.left lane hlane row hholds hleft)
      have hother := (repaired_iff hlane).mp (h.left lane hlane other hholds' hleft')
      rw [heq] at hother
      exact Option.some.inj (hother.symm.trans hrow)
  · intro h
    refine ⟨fun lane hlane peer hpeer row hheld => one_of_distinguished hkeyed h hlane hpeer hheld,
      fun lane hlane row => repaired_of_distinguished hkeyed h hlane,
      fun lane hlane peer hpeer row => reason_of_pruned hkeyed hlane hpeer,
      fun lane hlane row hrow => ?_, fun lane hlane => ?_⟩
    · have hid := identityListed_of_mem hrow
      exact ⟨fun peer hpeer => not_pruned_of_identityListed hkeyed hlane hpeer hid,
        not_repaired_of_identityListed hlane hid⟩
    · rw [mem_repairPending hlane]
      constructor
      · rintro ⟨rows, hrows⟩
        obtain ⟨row, hrow⟩ := List.exists_mem_of_ne_nil rows (mem_repair.mp hrows).2.1
        exact ⟨row, rows, hrows, hrow⟩
      · rintro ⟨row, rows, hrows, -⟩
        exact ⟨rows, hrows⟩

end Account

lemma eq_of_rowIdentity {row other : Row} (hrow : 0 ∉ row.key) (hother : 0 ∉ other.key)
    (h : rowIdentity other = rowIdentity row) : other = row := by
  have hsplit : ∀ a b c d : List UInt8, 0 ∉ a → 0 ∉ b → a ++ 0 :: c = b ++ 0 :: d →
      a = b ∧ c = d := by
    intro a
    induction a with
    | nil =>
      rintro (- | ⟨x, b⟩) c d - hb heq
      · exact ⟨rfl, (List.cons.inj heq).2⟩
      · exact absurd ((List.cons.inj heq).1 ▸ List.mem_cons_self) hb
    | cons x a ih =>
      rintro (- | ⟨y, b⟩) c d ha hb heq
      · exact absurd ((List.cons.inj heq).1 ▸ List.mem_cons_self) ha
      · obtain ⟨rfl, htail⟩ := List.cons.inj heq
        obtain ⟨rfl, rfl⟩ := ih b c d (fun h => ha (.tail _ h)) (fun h => hb (.tail _ h)) htail
        exact ⟨rfl, rfl⟩
  obtain ⟨hkey, hcontent⟩ := hsplit _ _ _ _ hother hrow h
  cases other
  cases row
  simp_all

/-- No key that is held or listed has a zero byte. -/
def ZeroFree (sha256 : Hash) (pass : ScanPass) (plane : PlaneState) : Prop :=
  ∀ lane ∈ pass.plan, ∀ row, pass.Holds sha256 plane lane row ∨ row ∈ pass.rows lane → 0 ∉ row.key

/-- **Where no key has a zero byte, no row is mistaken for another.** -/
lemma distinguished_of_zeroFree {σ : Type} {sha256 : Hash} {host : Host σ} {pass : ScanPass}
    {plane : PlaneState} (h : pass.ZeroFree sha256 plane) :
    pass.Distinguished sha256 host plane where
  unlisted lane hlane peer hpeer row hheld hnot other hother heq :=
    hnot (eq_of_rowIdentity (h lane hlane row (.inl (.inl ⟨peer, hpeer, hheld⟩)))
      (h lane hlane other (.inr hother)) heq ▸ hother)
  left_unlisted lane hlane row hholds hleft other hother heq :=
    hleft.1 (eq_of_rowIdentity (h lane hlane row (.inl hholds))
      (h lane hlane other (.inr hother)) heq ▸ hother)
  left lane hlane row hholds _ other hholds' _ heq :=
    eq_of_rowIdentity (h lane hlane row (.inl hholds)) (h lane hlane other (.inl hholds')) heq

end ScanPass

/-! ## Reachable planes -/

section Reachable

variable {σ : Type} (sha256 : Hash) (host : Host σ)

lemma PlaneSection.run_keyed {plane : PlaneState}
    (h : plane.Engines fun _ e => Engine.Keyed sha256 e.index) (s : PlaneSection) :
    (s.run sha256 host plane).Engines fun _ e => Engine.Keyed sha256 e.index := by
  have hI := keyed_invariant sha256
  cases s with
  | plan notes alive => exact scanPlan_engines h
  | clear => exact fun entry hentry => absurd hentry (OrdMap.not_mem_empty entry)
  | pass basis epoch scan lanes checkpoint alive =>
    exact tickPass_engines hI (fun _ _ _ _ => trivial) h alive
  | rescan lane => exact h.of_peers rfl
  | negotiate lane source message rows =>
    exact negotiate_engines hI h (fun _ _ => trivial) fun _ _ => trivial
  | fanOut lane source rows => exact fanOut_engines hI h fun _ _ => trivial
  | dispatched peer message delivered weak => exact dispatched_engines h peer message delivered weak

lemma runSections_keyed (sections : List PlaneSection) :
    (runSections sha256 host .new sections).Engines fun _ e => Engine.Keyed sha256 e.index :=
  List.foldlRecOn (motive := fun plane : PlaneState =>
    plane.Engines fun _ e => Engine.Keyed sha256 e.index) sections _
    (fun entry hentry => absurd hentry (OrdMap.not_mem_empty entry))
    fun _ hplane s _ => s.run_keyed sha256 host hplane

end Reachable

/-- **After a pass every engine row is accounted for exactly when no row is mistaken for
another**, in every plane that is reached and for every scan and reclaim basis; so it is wherever
no key has a zero byte. -/
theorem rows_accounted_iff {σ : Type} (sha256 : Hash) (host : Host σ) (sections : List PlaneSection)
    (pass : ScanPass) :
    (pass.Accounted sha256 host (runSections sha256 host .new sections) ↔
      pass.Distinguished sha256 host (runSections sha256 host .new sections)) ∧
    (pass.ZeroFree sha256 (runSections sha256 host .new sections) →
      pass.Accounted sha256 host (runSections sha256 host .new sections)) := by
  have hkeyed := runSections_keyed sha256 host sections
  exact ⟨ScanPass.accounted_iff hkeyed,
    fun h => (ScanPass.accounted_iff hkeyed).mpr (ScanPass.distinguished_of_zeroFree h)⟩

def zeroPass : ScanPass where
  basis := ⟨0, 0⟩
  epoch := 1
  plan := {.descriptors}
  rows _ := [⟨[1], [0, 2]⟩]
  checkpoint := none
  alive := [exclusionPeer 0]
  alive_nodup := List.nodup_singleton _

def zeroRun : List PlaneSection :=
  [.negotiate .descriptors (exclusionPeer 0) (.rows .descriptors [⟨[1, 0], [2]⟩]) [⟨[1, 0], [2]⟩]]

/-- **A row with a zero byte in its key is lost from the account**: the store does not hold it,
and it is neither pruned nor repaired. -/
theorem zero_key_unaccounted :
    ¬zeroPass.Accounted positionHash emptyHost
      (runSections positionHash emptyHost .new zeroRun) := by
  have hheld : (⟨[1, 0], [2]⟩ : Row) ∈ zeroPass.held positionHash
      (runSections positionHash emptyHost .new zeroRun) (exclusionPeer 0) .descriptors := by
    decide +kernel
  have hkept : (⟨[1, 0], [2]⟩ : Row) ∈ (((zeroPass.after positionHash emptyHost
      (runSections positionHash emptyHost .new zeroRun)).peers.get? (exclusionPeer 0)).getD
        .fresh).rows .descriptors := by
    decide +kernel
  have hrepair : zeroPass.repair positionHash emptyHost
      (runSections positionHash emptyHost .new zeroRun) = [] := by
    decide +kernel
  intro h
  rcases h.one .descriptors (by decide) (exclusionPeer 0) List.mem_cons_self _ hheld with
    ⟨hlisted, -⟩ | ⟨-, ⟨⟨-, hgone⟩, -⟩, -⟩ | ⟨-, -, rows, hrows, -⟩
  · exact absurd hlisted (by decide)
  · exact hgone hkept
  · rw [hrepair] at hrows
    exact absurd hrows List.not_mem_nil

end Radiata.Reconcile
