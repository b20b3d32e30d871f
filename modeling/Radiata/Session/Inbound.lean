import Radiata.Lib.Channel
import Radiata.Lib.OrdMap
import Radiata.Packet.Wire
import Radiata.Protocol.Signature

/-!
# The session read loop

The read loop of a session admits opens into a bounded table of incoming streams, feeds chunks in
strict sequence into the bounded channel of their stream, and ends a stream with its terminal.
Every admission spawns one consumer, which reads its body at its own pace.

The channel has eight slots for chunks and one for the terminal.  A chunk that finds its window
full waits once in the life of its stream, for a bounded time; the loop serves no other frame in
the meantime.  Frames for a trace that the node forwards go to the forwarder and are not seen
here.
-/

namespace Radiata.Session

open Lib Packet Protocol Routing
open Reconcile (Hash)

/-! ## Frames -/

structure ChunkFrame where
  traceId : TraceId
  sequence : UInt64
  bytes : List UInt8
deriving DecidableEq

inductive EndReason where
  | completed
  | interrupted
deriving DecidableEq

structure EndFrame where
  traceId : TraceId
  reason : EndReason
deriving DecidableEq

inductive AckStatus where
  | admitted
  | unsupported
  | overloaded
  | failed
deriving DecidableEq

structure AckFrame where
  traceId : TraceId
  status : AckStatus
  admittedAtMillis : ℤ
deriving DecidableEq

/-! ## Consumers -/

inductive StreamItem where
  | chunk (bytes : List UInt8)
  | finish
  | interrupted
deriving DecidableEq

inductive Terminal where
  | ended
  | interrupted
deriving DecidableEq

/-- A spawned consumer and what it read of its body.  `opened` counts the frames up to its open and
is used by statements alone. -/
structure Consumer where
  trace : TraceId
  opened : ℕ
  channel : Channel StreamItem
  read : List (List UInt8)
  terminal : Option Terminal

def Consumer.poll (c : Consumer) : Consumer :=
  if c.terminal.isSome = true ∨ c.channel.receiver = false then c
  else
    match c.channel.queue with
    | .chunk bytes :: rest =>
      { c with channel := { c.channel with queue := rest }, read := c.read ++ [bytes] }
    | .finish :: rest =>
      { c with channel := { c.channel with queue := rest }, terminal := some .ended }
    | .interrupted :: rest =>
      { c with channel := { c.channel with queue := rest }, terminal := some .interrupted }
    | [] => if c.channel.sender = true then c else { c with terminal := some .interrupted }

def Consumer.release (c : Consumer) : Consumer := { c with channel := c.channel.dropReceiver }

/-! ## The loop -/

def incomingStreamChunks : ℕ := 8

def incomingStreamTerminalSlots : ℕ := 1

def incomingSlots : ℕ := incomingStreamChunks + incomingStreamTerminalSlots

/-- An admitted stream.  The sender of its channel is held here, and `consumer` says whose
channel it is. -/
structure AdmittedStream where
  consumer : ℕ
  nextSequence : UInt64
  context : Digest
  admittedAtMillis : ℤ
  drainGraceSpent : Bool

def AdmittedStream.count (admitted : AdmittedStream) : AdmittedStream :=
  { admitted with
    nextSequence := if admitted.nextSequence = maxWord then maxWord else admitted.nextSequence + 1 }

inductive Handled where
  | opened (frame : OpenFrame)
  | chunk (frame : ChunkFrame)
  | ended (frame : EndFrame)
deriving DecidableEq

/-- A session's read loop.  `log` is the history of the frames it handled and is used by
statements alone. -/
structure Inbound where
  running : Bool
  incoming : OrdMap TraceId AdmittedStream
  waiting : Option ChunkFrame
  consumers : List Consumer
  acks : List AckFrame
  log : List Handled

/-- What a session is configured with: both nodes, the owning feature of every registered
protocol, the features selected on the session, the stream bound and the hash. -/
structure InboundConfig where
  localNode : NodeId
  peer : NodeId
  protocol : ProtocolTag → Option FeatureTag
  selected : FeatureTag → Bool
  queueMessages : ℕ
  sha256 : Hash

def textBytes (t : Text) : List UInt8 := Cbor.utf8 (String.ofList t)

def lengthPrefixed (bytes : List UInt8) : List UInt8 :=
  Cbor.beBytes 4 (bytes.length % 2 ^ 32) ++ bytes

def openingContext (frame : OpenFrame) : List UInt8 :=
  textBytes frame.source.text ++ [0] ++ textBytes frame.destination.text ++ [0] ++
    textBytes frame.protocol.tag.value ++
    Cbor.beBytes 4 (frame.metadata.entries.length % 2 ^ 32) ++
    frame.metadata.entries.flatMap fun entry =>
      lengthPrefixed (textBytes entry.1.value) ++ lengthPrefixed entry.2

def receiveOpenEnvelope (cfg : InboundConfig) (frame : OpenFrame) : Result RouteProgress :=
  (RouteContext.fromFrame frame.traceId frame.source frame.destination frame.route).receive
    cfg.localNode cfg.peer fun _ => .error ⟨.unsupported, "route forwarding"⟩

structure StreamAdmission where
  status : AckStatus
  admittedAtMillis : ℤ

namespace Inbound

variable (cfg : InboundConfig) (s : Inbound)

def start : Inbound := ⟨true, .empty, none, [], [], []⟩

def record (handled : Handled) : Inbound := { s with log := s.log ++ [handled] }

variable (trace : TraceId) (admitted : AdmittedStream)

def setStream : Inbound :=
  { s with incoming := s.incoming.insert trace admitted }

def setChannel (consumer : ℕ) (channel : Channel StreamItem) : Inbound :=
  { s with consumers := s.consumers.modify consumer fun c => { c with channel := channel } }

def channel : Option (Channel StreamItem) :=
  s.consumers[admitted.consumer]?.map Consumer.channel

def remove : Inbound :=
  { s with incoming := s.incoming.erase trace }

def close : Inbound :=
  { s with
    running := false
    incoming := .empty
    waiting := none
    consumers := s.consumers.map fun c => { c with channel := c.channel.dropSender } }

def terminate (channel : Channel StreamItem) : Inbound :=
  { (s.remove trace).setChannel admitted.consumer channel.dropSender with
    waiting := none
    acks := s.acks ++ [⟨trace, .failed, 0⟩] }

variable (frame : OpenFrame) (permit : Bool)

/-- The admission of an open by the table.  `permit` says whether a consumer slot of the node is
free, and `now` and `later` are readings of the clock. -/
def admitStream (now later : ℤ) : Inbound × StreamAdmission :=
  let context := bodyDigest cfg.sha256 (openingContext frame)
  match s.incoming.get? frame.traceId with
  | some admitted =>
    if admitted.context = context then (s, ⟨.admitted, admitted.admittedAtMillis⟩)
    else (s, ⟨.unsupported, later⟩)
  | none =>
    if ((cfg.protocol frame.protocol).any cfg.selected) = false then (s, ⟨.unsupported, later⟩)
    else if cfg.queueMessages ≤ s.incoming.entries.length then (s, ⟨.overloaded, later⟩)
    else if permit = false then (s, ⟨.overloaded, later⟩)
    else
      ({ s with
          incoming := s.incoming.insert frame.traceId
            ⟨s.consumers.length, 0, context, now, false⟩
          consumers := s.consumers ++ [⟨frame.traceId, s.log.length, .fresh, [], none⟩] },
        ⟨.admitted, later⟩)

def admitOpen (now later : ℤ) : Inbound × StreamAdmission :=
  match receiveOpenEnvelope cfg frame with
  | .ok .arrive => s.admitStream cfg frame permit now later
  | _ => (s, ⟨.unsupported, now⟩)

def handleOpen (now later : ℤ) (sent : Bool) : Inbound :=
  let next := s.admitOpen cfg frame permit now later
  if sent = true then
    { next.1 with
      acks := s.acks ++ [⟨frame.traceId, next.2.status, next.2.admittedAtMillis⟩] }
  else next.1.close

def queueChunk (frame : ChunkFrame) (admitted : AdmittedStream) (channel : Channel StreamItem) :
    Inbound :=
  match channel.trySend incomingSlots (.chunk frame.bytes) with
  | some channel => { s.setChannel admitted.consumer channel with waiting := none }
  | none => s.terminate frame.traceId admitted channel

def forwardChunk (frame : ChunkFrame) : Inbound :=
  match s.incoming.get? frame.traceId with
  | none => s
  | some admitted =>
    if admitted.nextSequence ≠ frame.sequence then s.close
    else
      match s.channel admitted with
      | none => s
      | some channel =>
        let next := admitted.count
        if incomingStreamTerminalSlots < channel.capacity incomingSlots then
          (s.setStream frame.traceId next).queueChunk frame next channel
        else if admitted.drainGraceSpent = true then
          (s.setStream frame.traceId next).terminate frame.traceId next channel
        else
          { s.setStream frame.traceId { next with drainGraceSpent := true } with
            waiting := some frame }

/-- The wait of a chunk ends: its consumer is gone, has freed two slots, or the patience elapsed.
Otherwise the chunk keeps waiting. -/
def wake (elapsed : Bool) : Inbound :=
  match s.waiting with
  | none => s
  | some frame =>
    match s.incoming.get? frame.traceId with
    | none => s
    | some admitted =>
      match s.channel admitted with
      | none => s
      | some channel =>
        if channel.receiver = false ∨ elapsed = true then
          s.terminate frame.traceId admitted channel
        else if incomingStreamTerminalSlots < channel.capacity incomingSlots then
          s.queueChunk frame admitted channel
        else s

def terminalItem : EndReason → StreamItem
  | .completed => .finish
  | .interrupted => .interrupted

def handleEnd (frame : EndFrame) : Inbound :=
  match s.incoming.get? frame.traceId with
  | none => s
  | some admitted =>
    match s.channel admitted with
    | none => s.remove frame.traceId
    | some channel =>
      let queued := (channel.trySend incomingSlots (terminalItem frame.reason)).getD channel
      (s.remove frame.traceId).setChannel admitted.consumer queued.dropSender

end Inbound

/-! ## Runs -/

/-- What can happen to a session: a frame that is not forwarded arrives, a wait ends, the loop ends
for another reason, and consumers read or go away. -/
inductive InboundEvent where
  | opened (frame : OpenFrame) (permit : Bool) (now later : ℤ) (sent : Bool)
  | chunk (frame : ChunkFrame)
  | ended (frame : EndFrame)
  | wake (elapsed : Bool)
  | closed
  | polls (consumer : ℕ)
  | releases (consumer : ℕ)

def Inbound.step (cfg : InboundConfig) (s : Inbound) : InboundEvent → Inbound
  | .opened frame permit now later sent =>
    if s.running = true ∧ s.waiting = none then
      (s.record (.opened frame)).handleOpen cfg frame permit now later sent
    else s
  | .chunk frame =>
    if s.running = true ∧ s.waiting = none then (s.record (.chunk frame)).forwardChunk frame else s
  | .ended frame =>
    if s.running = true ∧ s.waiting = none then (s.record (.ended frame)).handleEnd frame else s
  | .wake elapsed => s.wake elapsed
  | .closed => s.close
  | .polls consumer => { s with consumers := s.consumers.modify consumer Consumer.poll }
  | .releases consumer => { s with consumers := s.consumers.modify consumer Consumer.release }

def Inbound.run (cfg : InboundConfig) (events : List InboundEvent) : Inbound :=
  events.foldl (Inbound.step cfg) .start

end Radiata.Session
