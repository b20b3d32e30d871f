import Radiata.Identity.Terminal
import Radiata.Lib.OrdMap
import Radiata.Reconcile.Run
import Radiata.Storage.WriteNotes

/-!
# The reconciliation plane

One engine per peer and lane, driven by two entry points: the anti-entropy tick, which
scans the lanes whose families were written, feeds and prunes the engines and re-applies
what the store lacks, and the delivery of one inbound message.  What a lane's rows mean
is the lane's own business: the plane sees a policy per lane and a store it hands to it.

A link's quality is the single verdict the plane reads from it, whether the link is weak.
-/

namespace Radiata.Reconcile

open Lib Identity Storage

/-! ## Lanes and their policies -/

structure SweptBasis where
  sweptAt : ℤ
  removalRetention : ℕ

structure LanePolicy (σ : Type) where
  scan : σ → Result (List Row)
  /-- Whether an engine row is evidence the store will never hold again, given whether the
  scan listed its key. -/
  reclaimed : Bool → Row → SweptBasis → Option Millis → Bool
  readsCheckpoint : Bool
  receive : σ → SweptBasis → List Row → Result (List Row)
  apply : σ → List Row → σ × Result (List Row)

structure Host (σ : Type) where
  policy : LaneId → LanePolicy σ
  notes : σ → WriteNotes
  latestCheckpoint : σ → Result (Option Millis)
  hasMembers : σ → Result Bool

abbrev LaneScan := List (LaneId × List Row)

abbrev Outbound := List (NodeId × Message)

def rowIdentity (row : Row) : List UInt8 := row.key ++ 0 :: row.content

/-! ## Peers -/

structure PendingHint where
  message : Message
  attemptsLeft : ℕ
  resumeAtTick : ℕ

def hintRetryMax : ℕ := 4

structure PeerState where
  engines : LaneId → Option Engine
  primed : Bool
  ticksSinceExchange : ℕ
  weak : Bool
  hintRetry : Option PendingHint

namespace PeerState

def fresh : PeerState := ⟨fun _ => none, false, 0, false, none⟩

variable (state : PeerState) (lane : LaneId)

def engine : Engine := (state.engines lane).getD (.new lane)

def modify (f : Engine → Engine) : PeerState :=
  { state with engines := Function.update state.engines lane (some (f (state.engine lane))) }

def rows : List Row :=
  ((state.engines lane).map Engine.rows).getD []

def cadenceDivisor : ℕ := if state.weak then 4 else 1

variable (sha256 : Hash) (state : PeerState) (lane : LaneId)

def drive (input : Drive) : List Message × PeerState :=
  (((state.engine lane).drive sha256 input).1.toOption.getD [],
    state.modify lane fun e => (e.drive sha256 input).2)

def driveAll (input : Drive) (lanes : List LaneId) : List Message × PeerState :=
  lanes.foldl (fun acc lane =>
    let (messages, next) := acc.2.drive sha256 lane input
    (acc.1 ++ messages, next)) ([], state)

def insertRows (rows : List Row) : PeerState :=
  state.modify lane fun e => rows.foldl (fun e row => (e.insertRow sha256 row.key row.content).2) e

def insertRowsQuiet (rows : List Row) : PeerState :=
  state.modify lane fun e =>
    rows.foldl (fun e row => (e.insertRowQuiet sha256 row.key row.content).2) e

def pruneRows (prunable : Row → Bool) : PeerState :=
  state.modify lane fun e =>
    (e.rows.filter prunable).foldl (fun e row => (e.removeRow sha256 row.key row.content).2) e

end PeerState

/-! ## The plane's state -/

structure PlaneState where
  peers : OrdMap NodeId PeerState
  installEpoch : ℕ
  rotation : Option NodeId
  forceRescan : Finset LaneId
  repairPending : Finset LaneId
  heldHints : LaneId → List (NodeId × List RangeFingerprint)
  heldRoots : LaneId → List NodeId
  tickCount : ℕ

def heldHintsPerLane : ℕ := 8

def rootExchangeWindow : ℕ := 2

def detectionCadenceTicks : ℕ := 32

namespace PlaneState

def new : PlaneState := ⟨.empty, 0, none, ∅, ∅, fun _ => [], fun _ => [], 0⟩

variable (plane : PlaneState)

section

variable (lane : LaneId)

def laneInRound (except : Option NodeId) : Bool :=
  plane.peers.entries.any fun e =>
    decide (some e.1 ≠ except) && (e.2.engines lane).any Engine.roundOpen

def holdRoom : Bool :=
  (plane.heldHints lane).length < heldHintsPerLane &&
    (plane.heldRoots lane).length < heldHintsPerLane

def holdRootExchange (peer : NodeId) : PlaneState :=
  { plane with
    heldRoots := Function.update plane.heldRoots lane (plane.heldRoots lane ++ [peer]) }

def holdHint (source : NodeId) (ranges : List RangeFingerprint) : PlaneState :=
  { plane with
    heldHints := Function.update plane.heldHints lane (plane.heldHints lane ++ [(source, ranges)]) }

end

def heldLanes (peer : NodeId) : List LaneId :=
  LaneId.all.filter fun lane => plane.laneInRound lane (some peer) && plane.holdRoom lane

def runAll {α : Type} (f : PlaneState → α → Outbound × PlaneState) (plane : PlaneState)
    (steps : List α) : Outbound × PlaneState :=
  steps.foldl (fun acc a =>
    let (out, next) := f acc.2 a
    (acc.1 ++ out, next)) ([], plane)

variable (sha256 : Hash) (plane : PlaneState)

def driveKnown (peer : NodeId) (lane : LaneId) (input : Drive) : Outbound × PlaneState :=
  match plane.peers.get? peer with
  | none => ([], plane)
  | some state =>
    let (messages, next) := state.drive sha256 lane input
    (messages.map (peer, ·), { plane with peers := plane.peers.insert peer next })

def releaseLane (lane : LaneId) : Outbound × PlaneState :=
  if plane.laneInRound lane none then ([], plane)
  else
    let hints := plane.heldHints lane
    let roots := plane.heldRoots lane
    let plane := { plane with
      heldHints := Function.update plane.heldHints lane []
      heldRoots := Function.update plane.heldRoots lane [] }
    let (out, plane) := runAll (fun p (held : NodeId × List RangeFingerprint) =>
      p.driveKnown sha256 held.1 lane (.message (.hint lane held.2 []))) plane hints
    let (out', plane) :=
      runAll (fun p peer => p.driveKnown sha256 peer lane .rootExchange) plane roots
    (out ++ out', plane)

def releaseHeldHints : Outbound × PlaneState :=
  runAll (releaseLane sha256) plane
    (LaneId.all.filter (fun lane => !(plane.heldHints lane).isEmpty) ++
      LaneId.all.filter fun lane => !(plane.heldRoots lane).isEmpty)

end PlaneState

/-! ## The scan -/

section Scan

variable {σ : Type} (host : Host σ)

/-- Retires the peers that are gone and plans the lanes to scan. -/
def scanPlan (plane : PlaneState) (notes : WriteNotes) (alive : List NodeId) :
    Finset LaneId × PlaneState :=
  let peers := plane.peers.filter fun peer _ => alive.contains peer
  let hasUnprimed := alive.any fun peer => (peers.get? peer).all fun state => !state.primed
  let epochAdvanced := decide (notes.registerEpoch ≠ plane.installEpoch)
  let repairLanes := if epochAdvanced then plane.repairPending else ∅
  let next := { plane with
    peers := peers
    tickCount := plane.tickCount + 1
    forceRescan := ∅
    repairPending := if epochAdvanced then ∅ else plane.repairPending }
  let (dirty, untracked) := notes.dirtyNamespacesSince plane.installEpoch
  if hasUnprimed || untracked.isSome then (LaneId.all.toFinset, next)
  else
    (plane.forceRescan ∪ repairLanes ∪ (dirty.filterMap laneOfNamespace).toFinset, next)

def scanLanes (store : σ) (plan : Finset LaneId) : Result LaneScan :=
  (LaneId.all.filter (· ∈ plan)).mapM fun lane => do
    let rows ← (host.policy lane).scan store
    pure (lane, rows)

def listed (scan : LaneScan) (lane : LaneId) : Option (List (List UInt8) × List (List UInt8)) :=
  (scan.find? fun entry => entry.1 = lane).map fun entry =>
    (entry.2.map rowIdentity, entry.2.map Row.key)

/-- An engine row that leaves the index: the store lists its key under other content, or
the lane reclaimed it. -/
def prunable (basis : SweptBasis) (checkpoint : Option Millis) (lane : LaneId)
    (view : List (List UInt8) × List (List UInt8)) (row : Row) : Bool :=
  let keyPresent := view.2.contains row.key
  !view.1.contains (rowIdentity row) &&
    ((host.policy lane).reclaimed keyPresent row basis checkpoint || keyPresent)

def repairable (basis : SweptBasis) (checkpoint : Option Millis) (lane : LaneId)
    (view : List (List UInt8) × List (List UInt8)) (row : Row) : Bool :=
  let keyPresent := view.2.contains row.key
  !view.1.contains (rowIdentity row) &&
    !(host.policy lane).reclaimed keyPresent row basis checkpoint && !keyPresent

end Scan

/-! ## The tick's phases -/

section Tick

variable {σ : Type} (sha256 : Hash) (host : Host σ) (basis : SweptBasis) (scan : LaneScan)

def feed (state : PeerState) : PeerState :=
  scan.foldl (fun s entry => s.insertRows sha256 entry.1 entry.2) state

variable (plan : Finset LaneId)

/-- A fresh peer opens its first exchange in the lanes it need not hold; a primed one drives
its local changes, with piggyback unless the link is weak. -/
def announce (held : List LaneId) (state : PeerState) : List Message × PeerState :=
  if !state.primed then
    { state with primed := true, ticksSinceExchange := 0 }.driveAll sha256 .rootExchange
      (LaneId.all.filter fun lane => !held.contains lane)
  else
    state.driveAll sha256 (if !state.weak then .localChangeEager else .localChange)
      (LaneId.all.filter (· ∈ plan))

variable (checkpoint : Option Millis)

def pruneLane (state : PeerState) (lane : LaneId) : PeerState :=
  match listed scan lane with
  | none => state
  | some view => state.pruneRows sha256 lane (prunable host basis checkpoint lane view)

section

variable (plane : PlaneState)

/-- Feeds the scanned rows to a peer's engines, announces what changed and prunes. -/
def drivePeer (peer : NodeId) : (Outbound × List (LaneId × NodeId)) × PlaneState :=
  let held := plane.heldLanes peer
  let fed := feed sha256 scan ((plane.peers.get? peer).getD .fresh)
  let (messages, driven) := announce sha256 plan held fed
  let pruned := (LaneId.all.filter (· ∈ plan)).foldl
    (pruneLane sha256 host basis scan checkpoint) driven
  ((messages.map (peer, ·), if !fed.primed then held.map (·, peer) else []),
    { plane with peers := plane.peers.insert peer pruned })

/-- Drives the live peers in turn; what the prime holds is gathered for after the loop. -/
def drivePeers (alive : List NodeId) : (Outbound × List (LaneId × NodeId)) × PlaneState :=
  alive.foldl (fun acc peer =>
    let ((out, holds), next) := drivePeer sha256 host basis scan plan checkpoint acc.2 peer
    ((acc.1.1 ++ out, acc.1.2 ++ holds), next)) (([], []), plane)

def addRepair (seen : OrdMap (List UInt8) Row) (row : Row) : OrdMap (List UInt8) Row :=
  if (seen.get? (rowIdentity row)).isSome then seen else seen.insert (rowIdentity row) row

def repairRows (lane : LaneId) : List Row :=
  match listed scan lane with
  | none => []
  | some view =>
    (((plane.peers.entries.flatMap fun e => e.2.rows lane).filter
      (repairable host basis checkpoint lane view)).foldl addRepair .empty).entries.map Prod.snd

def repairIndex : LaneScan × PlaneState :=
  let repair := ((LaneId.all.filter (· ∈ plan)).map fun lane =>
    (lane, repairRows host basis scan checkpoint plane lane)).filter fun entry => !entry.2.isEmpty
  (repair, { plane with
    repairPending := plane.repairPending \ plan ∪ (repair.map Prod.fst).toFinset })

end

def rotationWindow (peers : List NodeId) (after : Option NodeId) (cap : ℕ) :
    List NodeId × Option NodeId :=
  if peers.isEmpty || cap = 0 then ([], none)
  else
    let start := (after.bind fun last => peers.findIdx? (· = last)).elim 0
      fun index => (index + 1) % peers.length
    let window := (List.range (min cap peers.length)).filterMap fun offset =>
      peers[(start + offset) % peers.length]?
    (window, window.getLast?)

variable (plane : PlaneState) (peer : NodeId)

def cadencePeer : Outbound × PlaneState :=
  let held := plane.heldLanes peer
  match plane.peers.get? peer with
  | none => ([], held.foldl (fun p lane => p.holdRootExchange lane peer) plane)
  | some state =>
    let (messages, driven) := { state with ticksSinceExchange := 0 }.driveAll sha256
      .rootExchange (LaneId.all.filter fun lane => !held.contains lane)
    (messages.map (peer, ·), held.foldl (fun p lane => p.holdRootExchange lane peer)
      { plane with peers := plane.peers.insert peer driven })

def cadenceWindow : Outbound × PlaneState :=
  let due := (plane.peers.entries.filter fun e =>
    e.2.primed && decide (max (detectionCadenceTicks / e.2.cadenceDivisor) 1 ≤
      e.2.ticksSinceExchange)).map Prod.fst
  let aged := plane.peers.mapValues fun _ state =>
    { state with ticksSinceExchange := state.ticksSinceExchange + 1 }
  let (window, rotation) := rotationWindow due plane.rotation rootExchangeWindow
  PlaneState.runAll (cadencePeer sha256) { plane with peers := aged, rotation := rotation } window

def drainPeer : Outbound × PlaneState :=
  match plane.peers.get? peer with
  | none => ([], plane)
  | some state =>
    let (messages, drained) := state.driveAll sha256 .drain
      (LaneId.all.filter fun lane => (state.engines lane).isSome)
    (messages.map (peer, ·), { plane with peers := plane.peers.insert peer drained })

def retryHint (tickNow : ℕ) (state : PeerState) : Option Message × PeerState :=
  match state.hintRetry with
  | none => (none, state)
  | some pending =>
    if !state.weak || pending.attemptsLeft = 0 then (none, { state with hintRetry := none })
    else if tickNow < pending.resumeAtTick then (none, state)
    else
      (some pending.message, { state with
        hintRetry := some ⟨pending.message, pending.attemptsLeft - 1,
          tickNow + 2 ^ (hintRetryMax - pending.attemptsLeft)⟩ })

/-- The outcome of one dispatch: the link's verdict after the sample, and a plain hint that was
not delivered over a weak link takes the retry slot if it is free. -/
def dispatched (message : Message) (delivered weak : Bool) (plane : PlaneState) : PlaneState :=
  match plane.peers.get? peer with
  | none => plane
  | some state =>
    let retry := match message with
      | .hint _ _ [] =>
        if !delivered && weak && state.hintRetry.isNone then
          some ⟨message, hintRetryMax, plane.tickCount + 1⟩
        else state.hintRetry
      | _ => state.hintRetry
    { plane with peers := plane.peers.insert peer { state with weak := weak, hintRetry := retry } }

/-- Sends again the hints that weak links have not taken yet. -/
def retryHints : Outbound × PlaneState :=
  (plane.peers.entries.filterMap fun e => (retryHint plane.tickCount e.2).1.map (e.1, ·),
    { plane with peers := plane.peers.mapValues fun _ state =>
    (retryHint plane.tickCount state).2 })

def repairLane (state : PlaneState × σ) (entry : LaneId × List Row) : PlaneState × σ :=
  let (next, result) := (host.policy entry.1).apply state.2 entry.2
  match result with
  | .ok _ => (state.1, next)
  | .error _ => ({ state.1 with forceRescan := insert entry.1 state.1.forceRescan }, next)

variable (store : σ)

def applyRepair (repair : LaneScan) : PlaneState × σ :=
  repair.foldl (repairLane host) (plane, store)

def claimEpoch (plan : Finset LaneId) (epoch : ℕ) (plane : PlaneState) : PlaneState :=
  { plane with installEpoch := if plan = ∅ then plane.installEpoch else epoch }

def tickTail (alive : List NodeId) : Outbound × PlaneState :=
  let (cadence, plane) := cadenceWindow sha256 plane
  let (released, plane) := plane.releaseHeldHints sha256
  let (drained, plane) := PlaneState.runAll (drainPeer sha256) plane alive
  let (retried, plane) := retryHints plane
  (cadence ++ released ++ drained ++ retried, plane)

def tickPass (epoch : ℕ) (scan : LaneScan) (plan : Finset LaneId) (checkpoint : Option Millis)
    (plane : PlaneState) (alive : List NodeId) : (Outbound × LaneScan) × PlaneState :=
  let ((driven, holds), plane) :=
    drivePeers sha256 host basis scan plan checkpoint (claimEpoch plan epoch plane) alive
  let plane := holds.foldl (fun p hold => p.holdRootExchange hold.1 hold.2) plane
  let (repair, plane) :=
    if plan = ∅ then ([], plane) else repairIndex host basis scan plan checkpoint plane
  let (out, plane) := tickTail sha256 plane alive
  ((driven ++ out, repair), plane)

def tickCheckpoint (plan : Finset LaneId) : Result (Option Millis) :=
  if ∃ lane ∈ plan, (host.policy lane).readsCheckpoint = true then host.latestCheckpoint store
  else .ok none

def tickScan (plan : Finset LaneId) : Result (Option Millis × LaneScan) := do
  let checkpoint ← tickCheckpoint host store plan
  let scan ← scanLanes host store plan
  pure (checkpoint, scan)

/-- One tick: plan, scan, the pass over the live peers, and the repair. -/
def tick (alive : List NodeId) (plane : PlaneState) (store : σ) :
    Result Outbound × PlaneState × σ :=
  match host.hasMembers store with
  | .error e => (.error e, plane, store)
  | .ok false => (.ok [], plane, store)
  | .ok true =>
    if alive.isEmpty then (.ok [], { plane with peers := .empty, rotation := none }, store)
    else
      let notes := host.notes store
      let (plan, plane) := scanPlan plane notes alive
      match tickScan host store plan with
      | .error e => (.error e, plane, store)
      | .ok (checkpoint, scan) =>
        let ((out, repair), plane) :=
          tickPass sha256 host basis notes.registerEpoch scan plan checkpoint plane alive
        (.ok out, applyRepair host plane store repair)

end Tick

/-! ## Delivery -/

section Deliver

variable {σ : Type} (sha256 : Hash) (host : Host σ) (basis : SweptBasis)

def retainRows (message : Message) (rows : List Row) : Message :=
  match message with
  | .rows lane _ => .rows lane rows
  | .hint lane ranges _ => .hint lane ranges rows
  | other => other

def keptRows (rows : List Row) : Result (List Row) → List Row
  | .ok refused => rows.filter fun row => !refused.contains row
  | .error _ => rows

variable (lane : LaneId)

def applyReceived (rows : List Row) (plane : PlaneState) (store : σ) : List Row × PlaneState × σ :=
  if rows.isEmpty then (rows, plane, store)
  else
    let (next, result) := (host.policy lane).apply store rows
    let kept := keptRows rows result
    (kept, if kept.isEmpty then plane else
      { plane with forceRescan := insert lane plane.forceRescan }, next)

def heldRanges (plane : PlaneState) (lane : LaneId) (source : NodeId) :
    Message → Option (List RangeFingerprint)
  | .hint _ ranges _ =>
    if plane.laneInRound lane (some source) && plane.holdRoom lane then some ranges else none
  | _ => none

def staleRoot (plane : PlaneState) (lane : LaneId) (source : NodeId) : Message → Bool
  | .root .. => plane.laneInRound lane (some source)
  | _ => false

variable (source : NodeId) (message : Message) (rows : List Row) (plane : PlaneState)

def admitMessage : Outbound × PlaneState :=
  let state := (plane.peers.get? source).getD .fresh
  match heldRanges plane lane source message with
  | some ranges =>
    ([], { plane.holdHint lane source ranges with
      peers := plane.peers.insert source (state.insertRowsQuiet sha256 lane rows) })
  | none =>
    let (messages, next) := state.drive sha256 lane (.message message)
    (messages.map (source, ·), { plane with peers := plane.peers.insert source next })

def negotiate : Option Outbound × PlaneState :=
  if staleRoot plane lane source message then (none, plane)
  else
    let (out, plane) := admitMessage sha256 lane source message rows plane
    let (released, plane) := plane.releaseHeldHints sha256
    (some (out ++ released), plane)

def fanOutPeer (peer : NodeId) (state : PeerState) : List Message × PeerState :=
  if peer = source || !state.primed then ([], state)
  else (state.insertRows sha256 lane rows).drive sha256 lane .localChange

def fanOut : Outbound × PlaneState :=
  if rows.isEmpty then ([], plane)
  else
    (plane.peers.entries.flatMap fun e =>
        (fanOutPeer sha256 lane source rows e.1 e.2).1.map (e.1, ·),
      { plane with
        peers := plane.peers.mapValues fun peer state =>
          (fanOutPeer sha256 lane source rows peer state).2 })

/-- One inbound message: its rows are applied, the engine is driven and what is new fanned out. -/
def deliver (store : σ) : Result Outbound × PlaneState × σ :=
  let lane := message.lane
  let carried := message.carried
  match if carried.isEmpty then .ok carried else (host.policy lane).receive store basis carried with
  | .error e => (.error e, plane, store)
  | .ok rows =>
    let (rows, plane, store) := applyReceived host lane rows plane store
    let message := if rows.length ≠ carried.length then retainRows message rows else message
    match negotiate sha256 lane source message rows plane with
    | (none, plane) => (.ok [], plane, store)
    | (some out, plane) =>
      let (fanned, plane) := fanOut sha256 lane source rows plane
      (.ok (out ++ fanned), plane, store)

end Deliver

end Radiata.Reconcile
