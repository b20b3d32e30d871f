import Radiata.Reconcile.LaneExclusion

/-!
# The rows of the plane

An engine holds only what it was given, and the plane gives its engines rows from two
sources: the scan of the store and the messages of its peers.  The repair writes back to
the store only what the engines hold.  So a condition on rows and a condition on stores
that the lane policies respect together, `Confined`, are kept by every tick, and by every
delivery of a message whose rows meet the condition.
-/

namespace Radiata.Reconcile

open Lib Identity Storage

/-! ## One engine -/

variable {sha256 : Hash}

namespace Engine

variable {P : Row → Prop} {e : Engine}

lemma forall_rows : (∀ row ∈ e.rows, P row) ↔ ∀ entry ∈ e.index.iter, P entry.2 :=
  List.forall_mem_map

lemma rows_new (lane : LaneId) : (new lane).rows = [] := by
  rw [rows, new, LiveIndex.iter_new, List.map_nil]

lemma forall_rows_step (op : Op) (h : ∀ row ∈ e.rows, P row) (hop : ∀ row ∈ op.stores, P row) :
    ∀ row ∈ (e.step sha256 op).rows, P row :=
  forall_rows.mpr (held_step (forall_rows.mp h) hop)

end Engine

/-- An invariant of a lane's engine: the empty engine has it, and every operation whose rows
meet the lane's condition keeps it. -/
structure EngineInvariant (sha256 : Hash) (I : LaneId → Engine → Prop) (P : LaneId → Row → Prop) :
    Prop where
  new : ∀ lane, I lane (.new lane)
  step : ∀ {lane e} (op : Op), I lane e → (∀ row ∈ op.stores, P lane row) →
    I lane (e.step sha256 op)

def RowsMeet (P : LaneId → Row → Prop) (lane : LaneId) (e : Engine) : Prop :=
  ∀ row ∈ e.rows, P lane row

lemma RowsMeet.invariant (sha256 : Hash) (P : LaneId → Row → Prop) :
    EngineInvariant sha256 (RowsMeet P) P where
  new lane := by
    intro row hrow
    rw [Engine.rows_new] at hrow
    exact absurd hrow List.not_mem_nil
  step op h hop := Engine.forall_rows_step op h hop

lemma keyed_invariant (sha256 : Hash) :
    EngineInvariant sha256 (fun _ e => Engine.Keyed sha256 e.index) fun _ _ => True where
  new lane := Engine.run_keyed sha256 lane []
  step op h _ := Engine.step_keyed op h

variable {I : LaneId → Engine → Prop} {state : PeerState} {lane : LaneId} {plane : PlaneState}

section Peers

variable {P : LaneId → Row → Prop}

lemma EngineInvariant.foldl (hI : EngineInvariant sha256 I P) {lane : LaneId} {e : Engine}
    {α : Type} (op : α → Op) {steps : List α} (h : I lane e)
    (hop : ∀ a ∈ steps, ∀ row ∈ (op a).stores, P lane row) :
    I lane (steps.foldl (fun e a => e.step sha256 (op a)) e) := by
  induction steps generalizing e with
  | nil => exact h
  | cons a steps ih =>
    exact ih (hI.step (op a) h (hop a List.mem_cons_self))
      fun b hb => hop b (List.mem_cons_of_mem a hb)

/-! ## One peer -/

namespace PeerState

def Engines (I : LaneId → Engine → Prop) (state : PeerState) : Prop :=
  ∀ lane e, state.engines lane = some e → I lane e

def Holds (P : LaneId → Row → Prop) (state : PeerState) : Prop :=
  ∀ lane e, state.engines lane = some e → ∀ row ∈ e.rows, P lane row

lemma Engines.fresh : fresh.Engines I := fun _ _ h => nomatch h

lemma Engines.engine (h : state.Engines I) (hI : EngineInvariant sha256 I P) (lane : LaneId) :
    I lane (state.engine lane) := by
  unfold PeerState.engine
  cases hget : state.engines lane with
  | some e => exact h lane e hget
  | none => exact hI.new lane

lemma Holds.rows (h : state.Holds P) (lane : LaneId) : ∀ row ∈ state.rows lane, P lane row := by
  unfold PeerState.rows
  cases hget : state.engines lane with
  | some e => exact h lane e hget
  | none => exact fun row hrow => absurd hrow List.not_mem_nil

lemma modify_engines (f : Engine → Engine) : (state.modify lane f).engines =
    Function.update state.engines lane (some (f (state.engine lane))) := rfl

lemma Engines.modify (h : state.Engines I) {f : Engine → Engine}
    (hf : I lane (f (state.engine lane))) : (state.modify lane f).Engines I := by
  intro lane' e he
  by_cases heq : lane' = lane
  · subst heq
    rw [modify_engines, Function.update_self] at he
    exact Option.some.inj he ▸ hf
  · rw [modify_engines, Function.update_of_ne heq] at he
    exact h lane' e he

variable (hI : EngineInvariant sha256 I P)
include hI

lemma Engines.drive (h : state.Engines I) (input : Drive)
    (hinput : ∀ row ∈ (Op.drive input).stores, P lane row) :
    (state.drive sha256 lane input).2.Engines I := by
  show (state.modify lane fun e => (e.drive sha256 input).2).Engines I
  exact h.modify (hI.step (.drive input) (h.engine hI lane) hinput)

lemma Engines.driveAll (h : state.Engines I) {input : Drive} (hinput : (Op.drive input).stores = [])
    (lanes : List LaneId) : (state.driveAll sha256 input lanes).2.Engines I := by
  unfold PeerState.driveAll
  refine List.foldlRecOn (motive := fun acc : List Message × PeerState => acc.2.Engines I) lanes _ h
    ?_
  intro acc hacc lane _
  refine Engines.drive hI hacc input ?_
  rw [hinput]
  exact fun row hrow => absurd hrow List.not_mem_nil

omit hI

lemma mem_stores_insert {key content : List UInt8} {row : Row}
    (h : row ∈ (if rowFitsMessage key.length content.length then [(⟨key, content⟩ : Row)] else
    [])) :
    row = ⟨key, content⟩ := by
  split_ifs at h
  · exact List.mem_singleton.mp h
  · exact absurd h List.not_mem_nil

include hI

section

variable (h : state.Engines I)
include h

lemma Engines.insertRows {rows : List Row} (hrows : ∀ row ∈ rows, P lane row) :
    (state.insertRows sha256 lane rows).Engines I := by
  refine Engines.modify h ?_
  refine hI.foldl (fun row : Row => .insertRow row.key row.content) (h.engine hI lane) ?_
  intro row hrow stored hstored
  rw [mem_stores_insert hstored]
  exact hrows row hrow

lemma Engines.insertRowsQuiet {rows : List Row} (hrows : ∀ row ∈ rows, P lane row) :
    (state.insertRowsQuiet sha256 lane rows).Engines I := by
  refine Engines.modify h ?_
  refine hI.foldl (fun row : Row => .insertRowQuiet row.key row.content) (h.engine hI lane) ?_
  intro row hrow stored hstored
  rw [mem_stores_insert hstored]
  exact hrows row hrow

lemma Engines.pruneRows (lane : LaneId) (prunable : Row → Bool) :
    (state.pruneRows sha256 lane prunable).Engines I := by
  refine Engines.modify h ?_
  refine hI.foldl (fun row : Row => .removeRow row.key row.content) (h.engine hI lane) ?_
  exact fun _ _ row hrow => absurd hrow List.not_mem_nil

end

end PeerState

/-! ## The plane -/

namespace PlaneState

def Engines (I : LaneId → Engine → Prop) (plane : PlaneState) : Prop :=
  ∀ entry ∈ plane.peers, entry.2.Engines I

def Holds (P : LaneId → Row → Prop) (plane : PlaneState) : Prop :=
  ∀ entry ∈ plane.peers, entry.2.Holds P

lemma engines_rowsMeet {plane : PlaneState} : plane.Engines (RowsMeet P) ↔ plane.Holds P :=
  Iff.rfl

lemma Engines.get (h : plane.Engines I) {peer : NodeId} {state : PeerState}
    (hget : plane.peers.get? peer = some state) : state.Engines I :=
  h (peer, state) (OrdMap.get?_eq_some.mp hget)

lemma Engines.getD (h : plane.Engines I) (peer : NodeId) :
    ((plane.peers.get? peer).getD .fresh).Engines I := by
  cases hget : plane.peers.get? peer with
  | none => exact .fresh
  | some state => exact h.get hget

variable {next : PlaneState}

section

variable (h : plane.Engines I)
include h

lemma Engines.of_peers (hpeers : next.peers = plane.peers) : next.Engines I := by
  unfold Engines
  rw [hpeers]
  exact h

lemma Engines.insert {peer : NodeId} {state : PeerState} (hstate : state.Engines I)
    (hpeers : next.peers = plane.peers.insert peer state) : next.Engines I := by
  unfold Engines
  rw [hpeers]
  exact OrdMap.forall_insert h hstate

lemma Engines.mapValues {f : NodeId → PeerState → PeerState}
    (hf : ∀ peer state, state.Engines I → (f peer state).Engines I)
    (hpeers : next.peers = plane.peers.mapValues f) : next.Engines I := by
  unfold Engines
  rw [hpeers]
  exact OrdMap.forall_mapValues h hf

end

lemma runAll_keeps {α : Type} {f : PlaneState → α → Outbound × PlaneState} {steps : List α}
    {Q : PlaneState → Prop} (h : Q plane) (hstep : ∀ p a, Q p → Q (f p a).2) :
    Q (runAll f plane steps).2 := by
  unfold runAll
  refine List.foldlRecOn (motive := fun acc : Outbound × PlaneState => Q acc.2) steps _ h ?_
  exact fun acc hacc a _ => hstep acc.2 a hacc

lemma Engines.holdRootExchanges (h : plane.Engines I) {α : Type} (lane : α → LaneId)
    (peer : α → NodeId) (holds : List α) :
    (holds.foldl (fun p a => p.holdRootExchange (lane a) (peer a)) plane).Engines I :=
  List.foldlRecOn (motive := fun p => Engines I p) holds _ h fun _ hp _ _ => hp

variable (hI : EngineInvariant sha256 I P)
include hI

section

variable (h : plane.Engines I)
include h

lemma Engines.driveKnown (peer : NodeId) (lane : LaneId) {input : Drive}
    (hinput : (Op.drive input).stores = []) :
    (plane.driveKnown sha256 peer lane input).2.Engines I := by
  unfold PlaneState.driveKnown
  cases hget : plane.peers.get? peer with
  | none => exact h
  | some state =>
    refine h.insert (PeerState.Engines.drive hI (h.get hget) input ?_) rfl
    rw [hinput]
    exact fun row hrow => absurd hrow List.not_mem_nil

lemma Engines.releaseLane (lane : LaneId) : (plane.releaseLane sha256 lane).2.Engines I := by
  unfold PlaneState.releaseLane
  split_ifs
  · exact h
  · refine runAll_keeps (runAll_keeps (h.of_peers rfl) ?_) ?_
    · exact fun p held hp => hp.driveKnown hI held.1 lane rfl
    · exact fun p peer hp => hp.driveKnown hI peer lane rfl

lemma Engines.releaseHeldHints : (plane.releaseHeldHints sha256).2.Engines I :=
  runAll_keeps h fun _ lane hp => hp.releaseLane hI lane

end

end PlaneState

end Peers

/-! ## The tick -/

variable {basis : SweptBasis} {scan : LaneScan} {plan : Finset LaneId}

section Tick

open PlaneState

variable {σ : Type} {host : Host σ}
variable {P : LaneId → Row → Prop}

lemma scanPlan_engines {notes : WriteNotes} {alive : List NodeId} (h : plane.Engines I) :
    (scanPlan plane notes alive).2.Engines I := by
  have hfilter : ∀ entry ∈ plane.peers.filter fun peer _ => alive.contains peer,
      entry.2.Engines I := fun entry hentry => h entry (OrdMap.mem_filter.mp hentry).1
  unfold scanPlan
  dsimp only
  split_ifs <;> exact hfilter

lemma get?_addRepairs (rows : List Row) (seen : OrdMap (List UInt8) Row) (identity : List UInt8) :
    (rows.foldl addRepair seen).get? identity =
      (seen.get? identity).or (rows.find? fun row => rowIdentity row = identity) := by
  induction rows generalizing seen with
  | nil => simp
  | cons row rows ih =>
    rw [List.foldl_cons, ih, addRepair]
    by_cases hid : rowIdentity row = identity
    · subst hid
      cases hget : seen.get? (rowIdentity row) with
      | some held => simp [hget]
      | none => simp [OrdMap.get?_insert_self]
    · rw [List.find?_cons_of_neg (by simpa using hid)]
      split_ifs
      · rfl
      · rw [OrdMap.get?_insert_of_ne (Ne.symm hid)]

def repairCandidates (host : Host σ) (basis : SweptBasis) (checkpoint : Option Millis)
    (plane : PlaneState) (lane : LaneId) (view : List (List UInt8) × List (List UInt8)) :
      List Row :=
  (plane.peers.entries.flatMap fun e => e.2.rows lane).filter
    (repairable host basis checkpoint lane view)

variable {checkpoint : Option Millis} {row : Row} {view : List (List UInt8) × List (List UInt8)}

lemma mem_repairRows_iff (hview : listed scan lane = some view) :
    row ∈ repairRows host basis scan checkpoint plane lane ↔
      (repairCandidates host basis checkpoint plane lane view).find?
        (fun other => rowIdentity other = rowIdentity row) = some row := by
  have hget (identity : List UInt8) :
      ((repairCandidates host basis checkpoint plane lane view).foldl
      addRepair .empty).get? identity =
        (repairCandidates host basis checkpoint plane lane view).find?
        fun other => rowIdentity other = identity := by
    rw [get?_addRepairs, OrdMap.get?_empty, Option.none_or]
  have hrows : repairRows host basis scan checkpoint plane lane =
      ((repairCandidates host basis checkpoint plane lane view).foldl addRepair .empty).entries.map
        Prod.snd := by
    rw [repairRows, hview, repairCandidates]
  rw [hrows, List.mem_map]
  constructor
  · rintro ⟨⟨identity, held⟩, hmem, rfl⟩
    have hfind := OrdMap.get?_eq_some.mpr hmem
    rw [hget] at hfind
    have hid : rowIdentity held = identity := by simpa using List.find?_some hfind
    rw [hid]
    exact hfind
  · intro hfind
    exact ⟨(rowIdentity row, row), OrdMap.get?_eq_some.mp ((hget _).trans hfind), rfl⟩

lemma mem_repairCandidates : row ∈ repairCandidates host basis checkpoint plane lane view ↔
      (∃ entry ∈ plane.peers, row ∈ entry.2.rows lane) ∧
        repairable host basis checkpoint lane view row = true := by
  rw [repairCandidates, List.mem_filter, List.mem_flatMap]
  exact Iff.rfl

lemma mem_repairRows (h : row ∈ repairRows host basis scan checkpoint plane lane) :
    ∃ entry ∈ plane.peers, row ∈ entry.2.rows lane := by
  cases hview : listed scan lane with
  | none =>
    rw [repairRows, hview] at h
    exact absurd h List.not_mem_nil
  | some view =>
    have hfind := (mem_repairRows_iff hview).mp h
    exact (mem_repairCandidates.mp (List.mem_of_find?_eq_some hfind)).1

lemma repairIndex_forall (h : plane.Holds P) :
    ∀ entry ∈ (repairIndex host basis scan plan checkpoint plane).1, ∀ row ∈ entry.2,
      P entry.1 row := by
  intro entry hentry row hrow
  obtain ⟨lane, -, rfl⟩ := List.mem_map.mp (List.mem_filter.mp hentry).1
  obtain ⟨peer, hpeer, hheld⟩ := mem_repairRows hrow
  exact (h peer hpeer).rows lane row hheld

variable (hI : EngineInvariant sha256 I P)
include hI

lemma feed_engines (hscan : ∀ entry ∈ scan, ∀ row ∈ entry.2, P entry.1 row) {state : PeerState}
    (h : state.Engines I) : (feed sha256 scan state).Engines I := by
  refine List.foldlRecOn (motive := fun s => PeerState.Engines I s) scan _ h ?_
  exact fun s hs entry hentry => PeerState.Engines.insertRows hI hs (hscan entry hentry)

lemma announce_engines (h : state.Engines I) (held : List LaneId) :
    (announce sha256 plan held state).2.Engines I := by
  unfold announce
  split
  · have hprimed : ({ state with primed := true, ticksSinceExchange := 0 } : PeerState).Engines I :=
      h
    exact hprimed.driveAll hI rfl _
  · refine PeerState.Engines.driveAll hI h ?_ _
    split <;> rfl

lemma pruneLane_engines (h : state.Engines I) (lane : LaneId) :
    (pruneLane sha256 host basis scan checkpoint state lane).Engines I := by
  unfold pruneLane
  split
  · exact h
  · exact PeerState.Engines.pruneRows hI h lane _

lemma drivePeer_engines (hscan : ∀ entry ∈ scan, ∀ row ∈ entry.2, P entry.1 row)
    (h : plane.Engines I) (peer : NodeId) :
    (drivePeer sha256 host basis scan plan checkpoint plane peer).2.Engines I := by
  have hdriven : (announce sha256 plan (plane.heldLanes peer)
      (feed sha256 scan ((plane.peers.get? peer).getD .fresh))).2.Engines I :=
    announce_engines hI (feed_engines hI hscan (h.getD peer)) _
  refine Engines.insert h ?_ rfl
  exact List.foldlRecOn (motive := fun s => PeerState.Engines I s) _ _ hdriven
    fun s hs lane _ => pruneLane_engines hI hs lane

lemma drivePeers_engines (hscan : ∀ entry ∈ scan, ∀ row ∈ entry.2, P entry.1 row)
    (h : plane.Engines I) (alive : List NodeId) :
    (drivePeers sha256 host basis scan plan checkpoint plane alive).2.Engines I := by
  unfold drivePeers
  refine List.foldlRecOn (motive := fun acc : (Outbound × List (LaneId × NodeId)) × PlaneState =>
    Engines I acc.2) alive _ h ?_
  exact fun acc hacc peer _ => drivePeer_engines hI hscan hacc peer

section

variable (h : plane.Engines I)
include h

variable (peer : NodeId)

lemma cadencePeer_engines : (cadencePeer sha256 plane peer).2.Engines I := by
  unfold cadencePeer
  dsimp only
  split
  · exact h.holdRootExchanges (fun lane => lane) (fun _ => peer) _
  · next state hget =>
      have hheld : state.Engines I := h.get hget
      have hstate : ({ state with ticksSinceExchange := 0 } : PeerState).Engines I := hheld
      refine Engines.holdRootExchanges ?_ (fun lane => lane) (fun _ => peer) _
      exact h.insert (hstate.driveAll hI rfl _) rfl

lemma cadenceWindow_engines : (cadenceWindow sha256 plane).2.Engines I := by
  unfold cadenceWindow
  refine runAll_keeps ?_ fun _ peer hp => cadencePeer_engines hI hp peer
  exact h.mapValues (f := fun _ state =>
    { state with ticksSinceExchange := state.ticksSinceExchange + 1 }) (fun _ _ hstate => hstate)
      rfl

lemma drainPeer_engines : (drainPeer sha256 plane peer).2.Engines I := by
  unfold drainPeer
  split
  · exact h
  · next state hget => exact h.insert (PeerState.Engines.driveAll hI (h.get hget) rfl _) rfl

omit hI

lemma retryHints_engines : (retryHints plane).2.Engines I := by
  refine h.mapValues (f := fun _ state => (retryHint plane.tickCount state).2) ?_ rfl
  intro peer state hstate
  unfold retryHint
  split
  · exact hstate
  · split_ifs <;> exact hstate

lemma dispatched_engines (message : Message) (delivered weak : Bool) :
    (dispatched peer message delivered weak plane).Engines I := by
  unfold dispatched
  split
  · exact h
  · next state hget =>
      have hstate : state.Engines I := h.get hget
      refine Engines.insert h ?_ rfl
      exact hstate

include hI

lemma tickTail_engines (alive : List NodeId) : (tickTail sha256 plane alive).2.Engines I :=
  retryHints_engines (runAll_keeps ((cadenceWindow_engines hI h).releaseHeldHints hI)
    fun _ peer hp => drainPeer_engines hI hp peer)

end

lemma tickPass_engines (hscan : ∀ entry ∈ scan, ∀ row ∈ entry.2, P entry.1 row) {epoch : ℕ}
    (h : plane.Engines I) (alive : List NodeId) :
    (tickPass sha256 host basis epoch scan plan checkpoint plane alive).2.Engines I := by
  have hclaimed : (claimEpoch plan epoch plane).Engines I := h
  have hdriven : (drivePeers sha256 host basis scan plan checkpoint (claimEpoch plan epoch plane)
      alive).2.Engines I := drivePeers_engines hI hscan hclaimed alive
  unfold tickPass
  dsimp only
  generalize drivePeers sha256 host basis scan plan checkpoint (claimEpoch plan epoch plane) alive =
    driven at hdriven
  have hheld := hdriven.holdRootExchanges (fun hold : LaneId × NodeId => hold.1)
    (fun hold => hold.2) driven.1.2
  generalize List.foldl _ driven.2 driven.1.2 = held at hheld
  split_ifs
  · exact tickTail_engines hI hheld alive
  · have hmarked : (repairIndex host basis scan plan checkpoint held).2.Engines I :=
      hheld.of_peers rfl
    exact tickTail_engines hI hmarked alive

omit hI

lemma tickPass_repair_meets (hscan : ∀ entry ∈ scan, ∀ row ∈ entry.2, P entry.1 row) {epoch : ℕ}
    (h : plane.Holds P) (alive : List NodeId) :
    ∀ entry ∈ (tickPass sha256 host basis epoch scan plan checkpoint plane alive).1.2,
      ∀ row ∈ entry.2, P entry.1 row := by
  have hclaimed : (claimEpoch plan epoch plane).Engines (RowsMeet P) := h
  have hdriven : (drivePeers sha256 host basis scan plan checkpoint (claimEpoch plan epoch plane)
      alive).2.Engines (RowsMeet P) :=
    drivePeers_engines (RowsMeet.invariant sha256 P) hscan hclaimed alive
  unfold tickPass
  dsimp only
  generalize drivePeers sha256 host basis scan plan checkpoint (claimEpoch plan epoch plane) alive =
    driven at hdriven
  have hheld := hdriven.holdRootExchanges (fun hold : LaneId × NodeId => hold.1)
    (fun hold => hold.2) driven.1.2
  generalize List.foldl _ driven.2 driven.1.2 = held at hheld
  split_ifs
  · exact fun entry hentry => absurd hentry List.not_mem_nil
  · exact repairIndex_forall hheld

end Tick

/-! ## Confined hosts -/

/-- A condition on rows and a condition on stores that the lanes respect together: a store
that meets the one lists only rows that meet the other, and rows that meet it keep the
store's.  A received batch is never extended. -/
structure Confined {σ : Type} (host : Host σ) (P : LaneId → Row → Prop) (Q : σ → Prop) : Prop where
  scan : ∀ {lane store rows}, Q store → (host.policy lane).scan store = .ok rows →
    ∀ row ∈ rows, P lane row
  apply : ∀ {lane store rows}, Q store → (∀ row ∈ rows, P lane row) →
    Q ((host.policy lane).apply store rows).1
  receive : ∀ {lane store basis rows kept}, (host.policy lane).receive store basis rows = .ok kept →
    ∀ row ∈ kept, row ∈ rows

variable {rows : List Row}

namespace Confined

open PlaneState

variable {σ : Type} {host : Host σ}
variable {P : LaneId → Row → Prop} {Q : σ → Prop} {store : σ}

lemma scanLanes (h : Confined host P Q) (hstore : Q store)
    (hscan : scanLanes host store plan = .ok scan) :
    ∀ entry ∈ scan, ∀ row ∈ entry.2, P entry.1 row := by
  unfold Reconcile.scanLanes at hscan
  generalize LaneId.all.filter (· ∈ plan) = lanes at hscan
  induction lanes generalizing scan with
  | nil =>
    obtain rfl := Except.ok.inj hscan
    exact fun entry hentry => absurd hentry List.not_mem_nil
  | cons lane lanes ih =>
    rw [List.mapM_cons] at hscan
    obtain ⟨head, hhead, hscan⟩ := bind_eq_ok.mp hscan
    obtain ⟨tail, htail, hscan⟩ := bind_eq_ok.mp hscan
    obtain ⟨rows, hrows, hhead⟩ := bind_eq_ok.mp hhead
    obtain rfl := Except.ok.inj hhead
    obtain rfl := Except.ok.inj hscan
    intro entry hentry
    rcases List.mem_cons.mp hentry with rfl | hmem
    · exact h.scan hstore hrows
    · exact ih htail entry hmem

lemma tickScan (h : Confined host P Q) {checkpoint : Option Millis} (hstore : Q store)
    (hscan : tickScan host store plan = .ok (checkpoint, scan)) :
    ∀ entry ∈ scan, ∀ row ∈ entry.2, P entry.1 row := by
  unfold Reconcile.tickScan at hscan
  obtain ⟨watermark, -, hscan⟩ := bind_eq_ok.mp hscan
  obtain ⟨rows, hrows, hscan⟩ := bind_eq_ok.mp hscan
  obtain ⟨-, rfl⟩ := Prod.mk.inj (Except.ok.inj hscan)
  exact h.scanLanes hstore hrows

lemma repairLane (h : Confined host P Q) {state : PlaneState × σ} {entry : LaneId × List Row}
    (hstate : state.1.Holds P ∧ Q state.2) (hentry : ∀ row ∈ entry.2, P entry.1 row) :
    (repairLane host state entry).1.Holds P ∧ Q (repairLane host state entry).2 := by
  have hnext := h.apply hstate.2 hentry
  unfold Reconcile.repairLane
  dsimp only
  split
  · exact ⟨hstate.1, hnext⟩
  · exact ⟨(engines_rowsMeet.mpr hstate.1).of_peers rfl, hnext⟩

lemma applyRepair (h : Confined host P Q) {repair : LaneScan} (hplane : plane.Holds P)
    (hstore : Q store) (hrepair : ∀ entry ∈ repair, ∀ row ∈ entry.2, P entry.1 row) :
    (applyRepair host plane store repair).1.Holds P ∧ Q
    (applyRepair host plane store repair).2 := by
  refine List.foldlRecOn (motive := fun state : PlaneState × σ => state.1.Holds P ∧ Q state.2)
    repair _
    ⟨hplane, hstore⟩ ?_
  exact fun state hstate entry hentry => h.repairLane hstate (hrepair entry hentry)

/-- **A tick keeps both conditions.** -/
theorem tick (h : Confined host P Q) (hplane : plane.Holds P) (hstore : Q store)
    (alive : List NodeId) :
    (tick sha256 host basis alive plane store).2.1.Holds P ∧
      Q (tick sha256 host basis alive plane store).2.2 := by
  have hplan : (scanPlan plane (host.notes store) alive).2.Holds P :=
    scanPlan_engines hplane
  unfold Reconcile.tick
  split
  · exact ⟨hplane, hstore⟩
  · exact ⟨hplane, hstore⟩
  · split_ifs
    · exact ⟨fun entry hentry => absurd hentry (OrdMap.not_mem_empty entry), hstore⟩
    · dsimp only
      split
      · exact ⟨hplan, hstore⟩
      · next checkpoint scan hscan =>
          have hrows := h.tickScan hstore hscan
          exact h.applyRepair
            (tickPass_engines (RowsMeet.invariant sha256 P) hrows hplan alive) hstore
            (tickPass_repair_meets hrows hplan alive)

/-! ### Delivery -/

lemma keptRows_subset (result : Result (List Row)) :
    ∀ row ∈ keptRows rows result, row ∈ rows := by
  cases result with
  | ok refused => exact fun row hrow => (List.mem_filter.mp hrow).1
  | error e => exact fun row hrow => hrow

lemma applyReceived (h : Confined host P Q) {lane : LaneId} (hplane : plane.Holds P)
    (hstore : Q store) (hrows : ∀ row ∈ rows, P lane row) :
    (∀ row ∈ (applyReceived host lane rows plane store).1, P lane row) ∧
      (applyReceived host lane rows plane store).2.1.Holds P ∧
      Q (applyReceived host lane rows plane store).2.2 := by
  unfold Reconcile.applyReceived
  split
  · exact ⟨hrows, hplane, hstore⟩
  · refine ⟨fun row hrow => hrows row (keptRows_subset _ row hrow), ?_, h.apply hstore hrows⟩
    dsimp only
    split
    · exact hplane
    · exact (engines_rowsMeet.mpr hplane).of_peers rfl

lemma carried_retainRows {message : Message} :
    ∀ row ∈ (retainRows message rows).carried, row ∈ rows := by
  cases message with
  | rows | hint => exact fun row hrow => hrow
  | root | offer | need | done => exact fun row hrow => absurd hrow List.not_mem_nil

end Confined

section Deliver

open PlaneState

variable {P : LaneId → Row → Prop} (hI : EngineInvariant sha256 I P) {source : NodeId}
  {message : Message}
include hI

section

variable (h : plane.Engines I)
include h

lemma admit_engines (hmessage : ∀ row ∈ message.carried, P lane row)
    (hrows : ∀ row ∈ rows, P lane row) :
    (admitMessage sha256 lane source message rows plane).2.Engines I := by
  unfold admitMessage
  dsimp only
  split
  · exact h.insert (PeerState.Engines.insertRowsQuiet hI (h.getD source) hrows) rfl
  · exact h.insert (PeerState.Engines.drive hI (h.getD source) (.message message) hmessage) rfl

lemma negotiate_engines (hmessage : ∀ row ∈ message.carried, P lane row)
    (hrows : ∀ row ∈ rows, P lane row) :
    (negotiate sha256 lane source message rows plane).2.Engines I := by
  unfold negotiate
  split
  · exact h
  · exact (admit_engines hI h hmessage hrows).releaseHeldHints hI

lemma fanOut_engines (hrows : ∀ row ∈ rows, P lane row) :
    (fanOut sha256 lane source rows plane).2.Engines I := by
  unfold fanOut
  split
  · exact h
  · refine h.mapValues (f := fun peer state => (fanOutPeer sha256 lane source rows peer state).2) ?_
      rfl
    intro peer state hstate
    unfold fanOutPeer
    split
    · exact hstate
    · exact PeerState.Engines.drive hI (hstate.insertRows hI hrows) .localChange
        fun row hrow => absurd hrow List.not_mem_nil

end

end Deliver

/-- **A delivery keeps both conditions** when the rows of its message meet theirs. -/
theorem Confined.deliver {σ : Type} {sha256 : Hash} {host : Host σ} {basis : SweptBasis}
    {P : LaneId → Row → Prop} {Q : σ → Prop} {plane : PlaneState} {store : σ}
    (h : Confined host P Q) (hplane : plane.Holds P) (hstore : Q store) (source : NodeId)
    {message : Message} (hmessage : ∀ row ∈ message.carried, P message.lane row) :
    (deliver sha256 host basis source message plane store).2.1.Holds P ∧
      Q (deliver sha256 host basis source message plane store).2.2 := by
  unfold Reconcile.deliver
  dsimp only
  split
  · exact ⟨hplane, hstore⟩
  · next filtered hfiltered =>
      have hin : ∀ row ∈ filtered, P message.lane row := by
        split_ifs at hfiltered
        · exact Except.ok.inj hfiltered ▸ hmessage
        · exact fun row hrow => hmessage row (h.receive hfiltered row hrow)
      obtain ⟨hkept, hplane', hstore'⟩ := h.applyReceived hplane hstore hin
      generalize Reconcile.applyReceived host message.lane filtered plane store = applied at *
      obtain ⟨kept, plane', store'⟩ := applied
      have hrewritten : ∀ row ∈ (if kept.length ≠ message.carried.length then
          retainRows message kept else message).carried, P message.lane row := by
        split_ifs
        · exact fun row hrow => hkept row (Confined.carried_retainRows row hrow)
        · exact hmessage
      have hdone : (negotiate sha256 message.lane source _ kept plane').2.Holds P :=
        negotiate_engines (RowsMeet.invariant sha256 P) hplane' hrewritten hkept
      dsimp only
      split
      · next next hnegotiate =>
          rw [hnegotiate] at hdone
          exact ⟨hdone, hstore'⟩
      · next out next hnegotiate =>
          rw [hnegotiate] at hdone
          exact ⟨fanOut_engines (RowsMeet.invariant sha256 P) hdone hkept, hstore'⟩

/-! ## Runs -/

lemma PlaneSection.run_engines {σ : Type} (host : Host σ)
    (hI : EngineInvariant sha256 I fun _ _ => True) (h : plane.Engines I) (s : PlaneSection) :
    (s.run sha256 host plane).Engines I := by
  cases s with
  | plan => exact scanPlan_engines h
  | clear => exact fun entry hentry => absurd hentry (OrdMap.not_mem_empty entry)
  | pass => exact tickPass_engines hI (fun _ _ _ _ => trivial) h _
  | rescan => exact h.of_peers rfl
  | negotiate => exact negotiate_engines hI h (fun _ _ => trivial) fun _ _ => trivial
  | fanOut => exact fanOut_engines hI h fun _ _ => trivial
  | dispatched => exact dispatched_engines h _ _ _ _

/-- **Every engine of the plane is a run**, so it has what every run of its lane's engine has. -/
theorem runSections_engines {σ : Type} (sha256 : Hash) (host : Host σ)
    (sections : List PlaneSection) :
    (runSections sha256 host .new sections).Engines fun lane e =>
      ∃ ops, e = Engine.run sha256 lane ops := by
  have hruns : EngineInvariant sha256 (fun lane e => ∃ ops, e = Engine.run sha256 lane ops)
      fun _ _ => True := by
    refine ⟨fun lane => ⟨[], rfl⟩, ?_⟩
    rintro lane _ op ⟨ops, rfl⟩ -
    exact ⟨ops ++ [op], (Engine.run_append sha256 lane ops op).symm⟩
  refine List.foldlRecOn (motive := fun p => PlaneState.Engines _ p) sections _ ?_
    fun p hp s _ => s.run_engines host hruns hp
  exact fun entry hentry => absurd hentry (OrdMap.not_mem_empty entry)

end Radiata.Reconcile
