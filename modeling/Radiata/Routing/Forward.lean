import Radiata.Session.Inbound

/-!
# The forwarder

A forwarding node keeps one hop for each routed trace: the session that feeds it, the session it
was forwarded to, and where the search for a live branch stands.  Every session's read loop uses
the one table, by trace.

The read loop of a session handles one frame at a time.  A handler takes the lock of the table,
of a pending map or of a hop, or waits for room in a queue, one after the other; each of these is
one step here, and steps of other handlers may come between any two.  A hop deadline may expire at
any time, and a handler may be cancelled at any step.
-/

namespace Radiata.Routing

open Lib Packet
open Session (ChunkFrame EndFrame EndReason AckFrame AckStatus)

/-- The exact session incarnation a hop attaches to.  It also stands for the frame queue and the
pending map of that session. -/
structure SessionIdentity where
  peer : NodeId
  id : ℕ
deriving DecidableEq

inductive Frame where
  | opening (frame : OpenFrame)
  | chunk (frame : ChunkFrame)
  | ending (frame : EndFrame)
  | ack (frame : AckFrame)
deriving DecidableEq

/-- One pending outbound admission: a waiter at the origin, or a hop whose acknowledgement is
relayed upstream. -/
inductive PendingAck where
  | wait
  | relay (upstream : SessionIdentity)
deriving DecidableEq

structure RetryState where
  frame : OpenFrame
  context : RouteContext
  candidates : List NodeId
  downstreamAcks : SessionIdentity
deriving DecidableEq

inductive HopPhase where
  | discovering (retry : RetryState)
  | admitted
  | redispatching
deriving DecidableEq

structure ForwardingHop where
  upstream : SessionIdentity
  downstream : SessionIdentity
  downstreamAcks : SessionIdentity
  upstreamSession : SessionIdentity
  downstreamSession : SessionIdentity
  relayLock : ℕ
  phase : HopPhase
deriving DecidableEq

inductive Refusal where
  | envelope
  | capacity
  | noSession
  | duplicate
  | pendingFull
  | pendingDuplicate
  | encoding
  | dispatch
  | registered
deriving DecidableEq

def Refusal.status : Refusal → AckStatus
  | .envelope | .duplicate | .pendingDuplicate | .registered => .unsupported
  | .capacity | .pendingFull => .overloaded
  | .noSession | .encoding | .dispatch => .failed

def loopFreeCandidates (source current : NodeId) (visited peers : List NodeId) : List NodeId :=
  peers.filter fun peer => peer ≠ current ∧ peer ≠ source ∧ peer ∉ visited

structure OpenJob where
  session : SessionIdentity
  frame : OpenFrame
  context : RouteContext
  nextHop : NodeId
  candidates : List NodeId

def OpenJob.trace (job : OpenJob) : TraceId := job.frame.traceId

def forwardedOpen (frame : OpenFrame) (context : RouteContext) : OpenFrame :=
  { frame with route := some context.hop }

structure Search where
  trace : TraceId
  retry : RetryState
  upstream : SessionIdentity

def Search.pop (search : Search) : Search :=
  { search with retry.candidates := search.retry.candidates.dropLast }

def Search.frame (search : Search) : OpenFrame :=
  { forwardedOpen search.retry.frame search.retry.context with traceId := search.trace }

/-- Where a handler stands between two await points. -/
inductive Task where
  | openCapacity (job : OpenJob)
  | openLookup (job : OpenJob)
  | openContains (job : OpenJob) (down : SessionIdentity)
  | openReserve (job : OpenJob) (down : SessionIdentity)
  | openSend (job : OpenJob) (down : SessionIdentity)
  | openWithdraw (job : OpenJob) (down : SessionIdentity) (reason : Refusal)
  | openRegister (job : OpenJob) (down : SessionIdentity)
  | chunkSnapshot (s : SessionIdentity) (frame : ChunkFrame)
  | chunkLock (s : SessionIdentity) (frame : ChunkFrame) (hop : ForwardingHop)
  | chunkContains (s : SessionIdentity) (frame : ChunkFrame) (hop : ForwardingHop)
  | chunkSend (s : SessionIdentity) (frame : ChunkFrame) (hop : ForwardingHop)
  | chunkFail (s : SessionIdentity) (frame : ChunkFrame) (hop : ForwardingHop)
  | endSnapshot (s : SessionIdentity) (frame : EndFrame)
  | endLock (s : SessionIdentity) (frame : EndFrame) (hop : ForwardingHop)
  | endTake (s : SessionIdentity) (frame : EndFrame) (hop : ForwardingHop)
  | endSend (s : SessionIdentity) (frame : EndFrame) (hop : ForwardingHop)
  | closeList (s : SessionIdentity)
  | closeNext (s : SessionIdentity) (remaining : List TraceId)
  | closeLock (s : SessionIdentity) (trace : TraceId) (hop : ForwardingHop)
      (remaining : List TraceId)
  | closeTake (s : SessionIdentity) (trace : TraceId) (hop : ForwardingHop)
      (remaining : List TraceId)
  | closeSend (s : SessionIdentity) (trace : TraceId) (hop : ForwardingHop)
      (remaining : List TraceId)
  | ackSteer (s : SessionIdentity) (ack : AckFrame)
  | ackOwned (s : SessionIdentity) (ack : AckFrame)
  | ackMark (s : SessionIdentity) (ack : AckFrame)
  | ackResolve (s : SessionIdentity) (ack : AckFrame)
  | ackRelay (ack : AckFrame)
  | failTake (trace : TraceId)
  | failNext (search : Search)
  | failExhausted (search : Search)
  | failReserve (search : Search) (down : SessionIdentity)
  | failSend (search : Search) (down : SessionIdentity)
  | failRebind (search : Search) (down : SessionIdentity)

inductive Owner where
  | reader (s : SessionIdentity)
  | timer (n : ℕ)
deriving DecidableEq

inductive Event where
  | opened (feeder : SessionIdentity) (frame : OpenFrame) (target : SessionIdentity)
  | relayed (s : SessionIdentity) (frame : Frame) (target : SessionIdentity)
  | acked (frame : AckFrame) (target : SessionIdentity)
  | refused (s : SessionIdentity) (trace : TraceId) (reason : Refusal)
  | removed (worker : SessionIdentity) (trace : TraceId) (feeder : SessionIdentity)
deriving DecidableEq

structure ForwardConfig where
  self : NodeId
  forwardingCapacity : ℕ
  pendingAdmissions : ℕ

/-- What the environment decides at a step: whether the frame encodes, whether its queue takes it,
and the status of a failed relay. -/
structure Choice where
  encodes : Bool
  accepted : Bool
  failure : AckStatus

structure Forwarder where
  hops : OrdMap TraceId ForwardingHop
  pending : SessionIdentity → OrdMap TraceId PendingAck
  sessions : NodeId → Option SessionIdentity
  locked : ℕ → Bool
  nextLock : ℕ
  tasks : Owner → Option Task
  log : List Event

namespace Forwarder

def start : Forwarder :=
  ⟨.empty, fun _ => .empty, fun _ => none, fun _ => false, 0, fun _ => none, []⟩

variable (n : Forwarder)

def record (event : Event) : Forwarder := { n with log := event :: n.log }

def setHop (trace : TraceId) (hop : ForwardingHop) : Forwarder :=
  { n with hops := n.hops.insert trace hop }

def take (worker : SessionIdentity) (trace : TraceId) : Forwarder :=
  match n.hops.get? trace with
  | none => n
  | some hop =>
    { n with
      hops := n.hops.erase trace
      log := .removed worker trace hop.upstreamSession :: n.log }

def withdraw (s : SessionIdentity) (trace : TraceId) : Forwarder :=
  { n with pending := Function.update n.pending s ((n.pending s).erase trace) }

variable (cfg : ForwardConfig)

def reserve (s : SessionIdentity) (trace : TraceId) (upstream : SessionIdentity)
    : Except Refusal Forwarder :=
  if ((n.pending s).get? trace).isSome then .error .pendingDuplicate
  else if cfg.pendingAdmissions ≤ (n.pending s).entries.length then .error .pendingFull
  else .ok { n with
    pending := Function.update n.pending s ((n.pending s).insert trace (.relay upstream)) }

def setLock (lock : ℕ) (held : Bool) : Forwarder :=
  { n with locked := Function.update n.locked lock held }

variable (c : Choice) (target : SessionIdentity)

def sendAck (frame : AckFrame) : Forwarder :=
  if c.accepted then n.record (.acked frame target) else n

variable (trace : TraceId)

def sendStatus (status : AckStatus) : Forwarder :=
  n.sendAck c target ⟨trace, status, 0⟩

def refuse (s : SessionIdentity) (trace : TraceId) (reason : Refusal) : Forwarder :=
  (n.record (.refused s trace reason)).sendStatus c s trace reason.status

def ackFromCurrentDownstream (s : SessionIdentity) (trace : TraceId) : Bool :=
  match n.hops.get? trace with
  | none => true
  | some hop =>
    s = hop.downstreamAcks &&
      match hop.phase with
      | .discovering _ =>
        match (n.pending s).get? trace with
        | some (.relay _) => true
        | _ => false
      | .admitted => true
      | .redispatching => false

def ownsDiscovering : Bool :=
  match n.hops.get? trace with
  | some ⟨_, _, _, _, _, _, .discovering _⟩ => true
  | _ => false

def markAdmitted : Forwarder :=
  match n.hops.get? trace with
  | none => n
  | some hop =>
    match hop.phase with
    | .discovering _ => n.setHop trace { hop with phase := .admitted }
    | _ => n

/-- A step of the handler of a routed open. -/
def actOpen : Task → Forwarder × Option Task
  | .openCapacity job =>
    if cfg.forwardingCapacity ≤ n.hops.entries.length then
      (n.refuse c job.session job.trace .capacity, none)
    else (n, some (.openLookup job))
  | .openLookup job =>
    match n.sessions job.nextHop with
    | none => (n.refuse c job.session job.trace .noSession, none)
    | some down => (n, some (.openContains job down))
  | .openContains job down =>
    if (n.hops.get? job.trace).isSome then (n.refuse c job.session job.trace .duplicate, none)
    else (n, some (.openReserve job down))
  | .openReserve job down =>
    match n.reserve cfg down job.trace job.session with
    | .error reason => (n.refuse c job.session job.trace reason, none)
    | .ok reserved => (reserved, some (.openSend job down))
  | .openSend job down =>
    if !c.encodes then (n, some (.openWithdraw job down .encoding))
    else if !c.accepted then (n, some (.openWithdraw job down .dispatch))
    else
      (n.record (.opened job.session (forwardedOpen job.frame job.context) down),
        some (.openRegister job down))
  | .openWithdraw job down reason =>
    ((n.withdraw down job.trace).refuse c job.session job.trace reason, none)
  | .openRegister job down =>
    if (n.hops.get? job.trace).isSome then (n, some (.openWithdraw job down .registered))
    else
      let hop : ForwardingHop :=
        ⟨job.session, down, down, job.session, down, n.nextLock,
          .discovering ⟨job.frame, job.context.replanned,
            job.candidates.filter fun candidate => candidate ≠ job.nextHop, down⟩⟩
      ({ n.setHop job.trace hop with nextLock := n.nextLock + 1 }, none)
  | task => (n, some task)

/-- A step of the handler of a chunk or an end. -/
def actBody : Task → Forwarder × Option Task
  | .chunkSnapshot s frame =>
    (n, (n.hops.get? frame.traceId).map fun hop => .chunkLock s frame hop)
  | .chunkLock s frame hop =>
    if n.locked hop.relayLock then (n, some (.chunkLock s frame hop))
    else (n.setLock hop.relayLock true, some (.chunkContains s frame hop))
  | .chunkContains s frame hop =>
    if (n.hops.get? frame.traceId).isSome then (n, some (.chunkSend s frame hop))
    else (n.setLock hop.relayLock false, none)
  | .chunkSend s frame hop =>
    if c.encodes && c.accepted then
      ((n.record (.relayed s (.chunk frame) hop.downstream)).setLock hop.relayLock false, none)
    else (n, some (.chunkFail s frame hop))
  | .chunkFail s frame hop =>
    match n.hops.get? frame.traceId with
    | none => (n.setLock hop.relayLock false, none)
    | some taken =>
      (((n.take s frame.traceId).sendStatus c taken.upstream frame.traceId c.failure).setLock
        hop.relayLock false, none)
  | .endSnapshot s frame =>
    (n, (n.hops.get? frame.traceId).map fun hop => .endLock s frame hop)
  | .endLock s frame hop =>
    if n.locked hop.relayLock then (n, some (.endLock s frame hop))
    else (n.setLock hop.relayLock true, some (.endTake s frame hop))
  | .endTake s frame hop =>
    match n.hops.get? frame.traceId with
    | none => (n.setLock hop.relayLock false, none)
    | some taken =>
      ((n.take s frame.traceId).setLock hop.relayLock false, some (.endSend s frame taken))
  | .endSend s frame hop =>
    if c.encodes && c.accepted then
      (n.record (.relayed s (.ending frame) hop.downstream), none)
    else (n.sendStatus c hop.upstream frame.traceId .failed, none)
  | task => (n, some task)

/-- A step of the handler of a session that closed. -/
def actClose : Task → Forwarder × Option Task
  | .closeList s =>
    (n, some (.closeNext s
      ((n.hops.entries.filter fun entry => entry.2.upstreamSession = s).map Prod.fst)))
  | .closeNext _ [] => (n, none)
  | .closeNext s (trace :: remaining) =>
    match n.hops.get? trace with
    | none => (n, some (.closeNext s remaining))
    | some hop => (n, some (.closeLock s trace hop remaining))
  | .closeLock s trace hop remaining =>
    if n.locked hop.relayLock then (n, some (.closeLock s trace hop remaining))
    else (n.setLock hop.relayLock true, some (.closeTake s trace hop remaining))
  | .closeTake s trace hop remaining =>
    match n.hops.get? trace with
    | none => (n.setLock hop.relayLock false, some (.closeNext s remaining))
    | some taken =>
      ((n.take s trace).setLock hop.relayLock false,
        some (.closeSend s trace taken remaining))
  | .closeSend s trace hop remaining =>
    let ending : EndFrame := ⟨trace, .interrupted⟩
    (if c.encodes && c.accepted then n.record (.relayed s (.ending ending) hop.downstream) else n,
      some (.closeNext s remaining))
  | task => (n, some task)

/-- A step of the handler of an acknowledgement. -/
def actAck : Task → Forwarder × Option Task
  | .ackSteer s ack =>
    if n.ackFromCurrentDownstream s ack.traceId then (n, some (.ackOwned s ack)) else (n, none)
  | .ackOwned s ack =>
    if ack.status ≠ .admitted ∧ n.ownsDiscovering ack.traceId = true then
      (n, some (.failTake ack.traceId))
    else (n, some (.ackMark s ack))
  | .ackMark s ack =>
    (if ack.status = .admitted then n.markAdmitted ack.traceId else n, some (.ackResolve s ack))
  | .ackResolve s ack =>
    match (n.pending s).get? ack.traceId with
    | none => (n, some (.ackRelay ack))
    | some .wait => (n.withdraw s ack.traceId, none)
    | some (.relay upstream) => ((n.withdraw s ack.traceId).sendAck c upstream ack, none)
  | .ackRelay ack =>
    match n.hops.get? ack.traceId with
    | some ⟨upstream, _, _, _, _, _, .admitted⟩ =>
      (if ack.status = .admitted then n else n.sendAck c upstream ack, none)
    | _ => (n, none)
  | task => (n, some task)

/-- A step of the search for another branch after a downstream failure. -/
def actFail : Task → Forwarder × Option Task
  | .failTake trace =>
    match n.hops.get? trace with
    | none => (n, none)
    | some hop =>
      match hop.phase with
      | .discovering retry =>
        ((n.setHop trace { hop with phase := .redispatching }).withdraw
          retry.downstreamAcks trace, some (.failNext ⟨trace, retry, hop.upstream⟩))
      | _ => (n, none)
  | .failNext search =>
    match search.retry.candidates.getLast? with
    | none => (n, some (.failExhausted search))
    | some candidate =>
      match n.sessions candidate with
      | none => (n, some (.failNext search.pop))
      | some down =>
        if c.encodes then (n, some (.failReserve search.pop down))
        else (n, some (.failNext search.pop))
  | .failExhausted search =>
    match n.hops.get? search.trace with
    | none => (n, none)
    | some hop =>
      ((n.take search.upstream search.trace).sendStatus c hop.upstream search.trace .failed,
        none)
  | .failReserve search down =>
    match n.reserve cfg down search.trace search.upstream with
    | .error _ => (n, some (.failNext search))
    | .ok reserved => (reserved, some (.failSend search down))
  | .failSend search down =>
    if c.accepted then
      (n.record (.opened search.upstream search.frame down), some (.failRebind search down))
    else (n.withdraw down search.trace, some (.failNext search))
  | .failRebind search down =>
    match n.hops.get? search.trace with
    | none => (n, none)
    | some hop =>
      (n.setHop search.trace
        { hop with
          downstream := down
          downstreamAcks := down
          downstreamSession := down
          phase := .discovering { search.retry with downstreamAcks := down } }, none)
  | task => (n, some task)

def act (task : Task) : Forwarder × Option Task :=
  match task with
  | .openCapacity _ | .openLookup _ | .openContains _ _ | .openReserve _ _ | .openSend _ _
  | .openWithdraw _ _ _ | .openRegister _ _ => n.actOpen cfg c task
  | .chunkSnapshot _ _ | .chunkLock _ _ _ | .chunkContains _ _ _ | .chunkSend _ _ _
  | .chunkFail _ _ _ | .endSnapshot _ _ | .endLock _ _ _ | .endTake _ _ _ | .endSend _ _ _ =>
    n.actBody c task
  | .closeList _ | .closeNext _ _ | .closeLock _ _ _ _ | .closeTake _ _ _ _
  | .closeSend _ _ _ _ => n.actClose c task
  | .ackSteer _ _ | .ackOwned _ _ | .ackMark _ _ | .ackResolve _ _ | .ackRelay _ => n.actAck c task
  | .failTake _ | .failNext _ | .failExhausted _ | .failReserve _ _ | .failSend _ _
  | .failRebind _ _ => n.actFail cfg c task

/-! ## Handlers at once -/

def setTask (owner : Owner) (task : Option Task) : Forwarder :=
  { n with tasks := Function.update n.tasks owner task }


end Forwarder

def Task.holds : Task → Option ℕ
  | .chunkContains _ _ hop | .chunkSend _ _ hop | .chunkFail _ _ hop | .endTake _ _ hop
  | .closeTake _ _ hop _ => some hop.relayLock
  | _ => none

inductive Action where
  | connect (peer : NodeId) (session : Option SessionIdentity)
  | openArrives (s : SessionIdentity) (frame : OpenFrame)
      (plan : RouteContext → Result (List NodeId)) (peers : List NodeId) (choice : Choice)
  | chunkArrives (s : SessionIdentity) (frame : ChunkFrame)
  | endArrives (s : SessionIdentity) (frame : EndFrame)
  | ackArrives (s : SessionIdentity) (ack : AckFrame)
  | closes (s : SessionIdentity)
  | expires (timer : ℕ) (s : SessionIdentity) (trace : TraceId)
  | acts (owner : Owner) (choice : Choice)
  | cancels (owner : Owner)

namespace Forwarder

variable (n : Forwarder)

def advance (owner : Owner) (result : Forwarder × Option Task) : Forwarder :=
  result.1.setTask owner result.2

def begins (s : SessionIdentity) (task : Option Task) : Forwarder :=
  match n.tasks (.reader s) with
  | some _ => n
  | none => n.setTask (.reader s) task

variable (cfg : ForwardConfig)

def openArrives (s : SessionIdentity) (frame : OpenFrame)
    (plan : RouteContext → Result (List NodeId)) (peers : List NodeId) (c : Choice) : Forwarder :=
  match n.tasks (.reader s) with
  | some _ => n
  | none =>
    let envelope := RouteContext.fromFrame frame.traceId frame.source frame.destination frame.route
    let candidates :=
      loopFreeCandidates envelope.source envelope.hop.current envelope.hop.visited peers
    match envelope.receive cfg.self s.peer plan with
    | .ok (.continue nextHop context) =>
      n.setTask (.reader s) (some (.openCapacity ⟨s, frame, context, nextHop, candidates⟩))
    | _ => n.refuse c s frame.traceId .envelope

/-- A frame, a close or an expiry starts a handler; a handler in flight steps or is cancelled. -/
def step (n : Forwarder) : Action → Forwarder
  | .connect peer session => { n with sessions := Function.update n.sessions peer session }
  | .openArrives s frame plan peers choice => n.openArrives cfg s frame plan peers choice
  -- a trace that is not forwarded here belongs to the session's own streams
  | .chunkArrives s frame =>
    n.begins s (if (n.hops.get? frame.traceId).isSome then some (.chunkSnapshot s frame) else none)
  | .endArrives s frame =>
    n.begins s (if (n.hops.get? frame.traceId).isSome then some (.endSnapshot s frame) else none)
  | .ackArrives s ack => n.begins s (some (.ackSteer s ack))
  | .closes s => n.begins s (some (.closeList s))
  | .expires timer s trace =>
    match n.tasks (.timer timer), (n.pending s).get? trace with
    | none, some (.relay _) =>
      (n.withdraw s trace).setTask (.timer timer) (some (.failTake trace))
    | _, _ => n
  | .acts owner choice =>
    match n.tasks owner with
    | none => n
    | some task => advance owner (n.act cfg choice task)
  | .cancels owner =>
    match n.tasks owner with
    | none => n
    | some task =>
      match task.holds with
      | none => n.setTask owner none
      | some lock => (n.setLock lock false).setTask owner none

def run (n : Forwarder) (actions : List Action) : Forwarder :=
  actions.foldl (step cfg) n

end Forwarder

end Radiata.Routing
