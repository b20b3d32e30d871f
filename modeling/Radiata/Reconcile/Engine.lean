import Radiata.Lib.Chunks
import Radiata.Reconcile.Digest
import Radiata.Reconcile.LiveIndex
import Radiata.Reconcile.Wire

/-!
# The reconciliation engine

One engine per session and lane: a deterministic state machine over the lane's
fingerprint index that turns a drive input into the messages to send the peer.
Every function below is the source's, with the engine passed explicitly; a drive
that fails keeps the mutations made before the failure and loses the messages it
had already drained, as the source does.

All outbound work is appended to the backlog and leaves it from the front, at most
`messageBudgetPerDrive` messages per drive.
-/

namespace Radiata.Reconcile

open Lib

/-- The recursion fan-out: one OFFER carries the aggregates of this many children
of each divergent range. -/
def fanout : ℕ := 4

def messageBudgetPerDrive : ℕ := 64

def rowBytesBudget : ℕ := 48 * 1024

def rowsBacklogCeiling : ℕ := 4096

def eagerDeltaBytes : ℕ := 4 * 1024

def needPendingBounds : ℕ := 4 * maxRangesPerMessage

def hintPendingMax : ℕ := 8

inductive Drive where
  | message (message : Message)
  | localChange
  | localChangeEager
  | rootExchange
  | drain

/-- What happened so far, for the statements about runs.  No function of the engine
reads these counters. -/
structure History where
  initiations : ℕ
  droppedNeeds : ℕ
  ceilingStops : ℕ
deriving DecidableEq

structure Engine where
  lane : LaneId
  index : LiveIndex Row
  peerRoot : Option Fingerprint
  roundOpen : Bool
  awaitingResponse : Bool
  dirty : Option (List (UInt64 × UInt64))
  backlog : List Message
  pendingNeeds : List (UInt64 × UInt64)
  pendingHints : List (List RangeFingerprint)
  eager : List UInt64
  history : History

structure Triple where
  start : UInt64
  stop : UInt64
  peer : Fingerprint

def RangeFingerprint.triple (range : RangeFingerprint) : Triple :=
  ⟨range.start, range.stop, ⟨range.count, range.xor⟩⟩

/-! ## Ranges and roots -/

def mix64 (value : UInt64) : UInt64 :=
  let z := value + 0x9E3779B97F4A7C15
  let z := (z ^^^ (z >>> 30)) * 0xBF58476D1CE4E5B9
  let z := (z ^^^ (z >>> 27)) * 0x94D049BB133111EB
  z ^^^ (z >>> 31)

def stateToken (root : Fingerprint) : UInt64 :=
  mix64 (root.count + ((root.xor <<< 32) ||| (root.xor >>> 32)))

/-- The initiation order over whole-lane roots: the `(count, xor)`-lesser side
initiates. -/
def rootPrecedes (held peer : Fingerprint) : Bool :=
  decide (held.count < peer.count ∨ held.count = peer.count ∧ held.xor < peer.xor)

/-- Splits the inclusive range `[start, stop]` into children that cover it exactly:
four quarters while it is wide, its singletons once it is three digests wide or
narrower. -/
def split (start stop : UInt64) : List (UInt64 × UInt64) :=
  let width := stop.toNat - start.toNat + 1
  let quarter := UInt64.ofNat (width / fanout)
  if quarter = 0 then
    (List.range width).map fun i => (start + UInt64.ofNat i, start + UInt64.ofNat i)
  else
    let firstEdge := start + quarter
    let secondEdge := start + 2 * quarter
    let thirdEdge := start + 3 * quarter
    [(start, firstEdge - 1), (firstEdge, secondEdge - 1), (secondEdge, thirdEdge - 1),
      (thirdEdge, stop)]

/-! ## Row packing -/

def Row.cost (row : Row) : ℕ := row.key.length + row.content.length

/-- Packs rows into ROWS messages while `room` remains, with the chunk being filled
and its bytes; says whether rows or an owed answer were left for want of room. -/
def packRows (lane : LaneId) (answer : Bool) :
    ℕ → List Row → ℕ → List Row → List Message × Bool
  | room, chunk, _, [] =>
    if !chunk.isEmpty || answer then
      if room > 0 then ([.rows lane chunk], false) else ([], true)
    else ([], false)
  | room, chunk, bytes, row :: rows =>
    if !chunk.isEmpty &&
        (decide (chunk.length ≥ maxRowsPerMessage) ||
          decide (bytes + row.cost > rowBytesBudget)) then
      match room with
      | 0 => ([], true)
      | room + 1 =>
        let (messages, stopped) := packRows lane answer room [row] row.cost rows
        (.rows lane chunk :: messages, stopped)
    else packRows lane answer room (chunk ++ [row]) (bytes + row.cost) rows

def eagerRows (index : LiveIndex Row) : ℕ → List UInt64 → List Row
  | _, [] => []
  | bytes, digest :: digests =>
    match index.get digest with
    | none => eagerRows index bytes digests
    | some row =>
      if bytes + row.cost > eagerDeltaBytes then []
      else row :: eagerRows index (bytes + row.cost) digests

/-! ## The dirty set -/

def BoundLe (a b : UInt64 × UInt64) : Prop := a.1 < b.1 ∨ a.1 = b.1 ∧ a.2 ≤ b.2

instance : DecidableRel BoundLe := fun _ _ => inferInstanceAs (Decidable (_ ∨ _))

def touches (digest : UInt64) (bound : UInt64 × UInt64) : Bool :=
  let above := if digest = maxWord then maxWord else digest + 1
  let below := if digest = 0 then 0 else digest - 1
  decide (bound.1 ≤ above) && decide (bound.2 ≥ below)

def coalesce (digest : UInt64) (bounds : List (UInt64 × UInt64)) : List (UInt64 × UInt64) :=
  let touched := bounds.filter (touches digest)
  let rest := bounds.filter fun bound => !touches digest bound
  let start := touched.foldl (fun start bound => min start bound.1) digest
  let stop := touched.foldl (fun stop bound => max stop bound.2) digest
  (rest ++ [(start, stop)]).insertionSort BoundLe

namespace Engine

def new (lane : LaneId) : Engine where
  lane := lane
  index := .new
  peerRoot := none
  roundOpen := false
  awaitingResponse := false
  dirty := some []
  backlog := []
  pendingNeeds := []
  pendingHints := []
  eager := []
  history := ⟨0, 0, 0⟩

/-! ## Queries -/

variable (e : Engine)

def rows : List Row := e.index.iter.map Prod.snd

/-- The local aggregate over the inclusive range; the top of the digest space goes
through the group law. -/
def rangeFingerprint (start stop : UInt64) : Fingerprint :=
  if stop < maxWord then e.index.range start (stop + 1)
  else e.index.root.remove (e.index.prefixBelow start)

def claim (bound : UInt64 × UInt64) : RangeFingerprint :=
  let fingerprint := e.rangeFingerprint bound.1 bound.2
  ⟨bound.1, bound.2, fingerprint.count, fingerprint.xor⟩

def queuedRowsMessages : ℕ :=
  e.backlog.countP fun | .rows _ _ => true | _ => false

def doneMessage : Message := .done e.lane (stateToken e.index.root)

/-! ## Local rows -/

variable (digest : UInt64)

/-- Records a locally changed digest; overflowing the hint bound falls back to the
whole digest space. -/
def markDirty : Engine :=
  match e.dirty with
  | none => e
  | some bounds =>
    let rest := coalesce digest bounds
    if rest.length > maxRangesPerMessage then { e with dirty := none }
    else { e with dirty := some rest }

def eagerBytes : ℕ :=
  ((e.eager.filterMap fun digest => e.index.get digest).map Row.cost).sum

/-- Records one newly inserted digest as an eager-delta candidate, under the count
and byte ceilings. -/
def noteEager (rowBytes : ℕ) : Engine :=
  if e.eager.length ≥ maxRowsPerMessage ∨ e.eagerBytes + rowBytes > eagerDeltaBytes then e
  else { e with eager := e.eager ++ [digest] }

def store (row : Row) (eager : Bool) : Engine :=
  let (previous, index) := e.index.insert digest row
  let e := { e with index := index }
  match previous with
  | some _ => e
  | none =>
    let e := e.markDirty digest
    if eager then e.noteEager digest row.cost else e

section Digests

variable (sha256 : Hash)

section

variable (e : Engine)

def insertRowInner (key content : List UInt8) (eager : Bool) : Result Unit × Engine :=
  if !rowFitsMessage key.length content.length then
    (.error (.invalidInput "reconcile row size"), e)
  else
    match itemDigest sha256 key content with
    | .error err => (.error err, e)
    | .ok digest => (.ok (), e.store digest ⟨key, content⟩ eager)

def insertRow (key content : List UInt8) : Result Unit × Engine :=
  e.insertRowInner sha256 key content true

def insertRowQuiet (key content : List UInt8) : Result Unit × Engine :=
  e.insertRowInner sha256 key content false

def removeRow (key content : List UInt8) : Result Bool × Engine :=
  match itemDigest sha256 key content with
  | .error err => (.error err, e)
  | .ok digest =>
    let (removed, index) := e.index.remove digest
    let e := { e with index := index }
    match removed with
    | some _ => (.ok true, e.markDirty digest)
    | none => (.ok false, e)

end

def applyRows : Engine → List Row → Result Unit × Engine
  | e, [] => (.ok (), e)
  | e, row :: rows =>
    match itemDigest sha256 row.key row.content with
    | .error err => (.error err, e)
    | .ok digest => applyRows (e.store digest row false) rows

end Digests

/-! ## Outbound work -/

variable (e : Engine)

def push (message : Message) : Engine :=
  { e with backlog := e.backlog ++ [message] }

def entries (start stop : UInt64) : List (UInt64 × Row) :=
  if stop < maxWord then e.index.rangeEntries start (stop + 1)
  else e.index.iter.filter fun entry => decide (entry.1 ≥ start)

/-- Queues the rows of an inclusive range as bounded ROWS messages, up to the
backlog ceiling; an answer emits a message even for an empty range.  Returns how
many messages were queued. -/
def pushRows (start stop : UInt64) (answer : Bool) : ℕ × Engine :=
  let room := rowsBacklogCeiling - e.queuedRowsMessages
  let (messages, stopped) :=
    packRows e.lane answer room [] 0 ((e.entries start stop).map Prod.snd)
  (messages.length,
    { e with
      backlog := e.backlog ++ messages
      history :=
        { e.history with ceilingStops := e.history.ceilingStops + if stopped then 1 else 0 } })

def answerNeed (start stop : UInt64) : Engine :=
  if e.pendingNeeds.any fun pending => decide (pending.1 ≤ start ∧ stop ≤ pending.2) then e
  else if e.pendingNeeds.length ≥ needPendingBounds then
    { e with history := { e.history with droppedNeeds := e.history.droppedNeeds + 1 } }
  else
    let (queued, e) := e.pushRows start stop true
    if queued > 0 then { e with pendingNeeds := e.pendingNeeds ++ [(start, stop)] } else e

/-- Packs offered ranges into bounded OFFER messages: questions, so the round is
awaiting. -/
def pushOffers (offers : List RangeFingerprint) : Engine :=
  { e with
    backlog := e.backlog ++ (chunks maxRangesPerMessage offers).map (.offer e.lane)
    awaitingResponse := if offers.isEmpty then e.awaitingResponse else true }

def pushNeeds (needs : List DigestRange) : Engine :=
  { e with
    backlog := e.backlog ++ (chunks maxRangesPerMessage needs).map (.need e.lane)
    awaitingResponse := if needs.isEmpty then e.awaitingResponse else true }

/-! ## Negotiation -/

structure Work where
  offers : List RangeFingerprint
  needs : List DigestRange
  pushes : List (UInt64 × UInt64)

def compareRange (work : Work) (t : Triple) : Work :=
  let held := e.rangeFingerprint t.start t.stop
  if held = t.peer then work
  else if t.peer.count = 0 then
    -- The peer proved it lacks the whole range: push the rows.
    { work with pushes := work.pushes ++ [(t.start, t.stop)] }
  else if held.count = 0 then
    -- The engine lacks the whole range: pull the peer's rows.
    { work with needs := work.needs ++ [⟨t.start, t.stop⟩] }
  else if t.start = t.stop then
    -- The terminal collision fail-safe exchanges both directions.
    { work with
      pushes := work.pushes ++ [(t.start, t.stop)]
      needs := work.needs ++ [⟨t.start, t.stop⟩] }
  else { work with offers := work.offers ++ (split t.start t.stop).map e.claim }

variable (triples : List Triple)

def processRanges : Engine :=
  let work := triples.foldl e.compareRange ⟨[], [], []⟩
  let e := e.pushOffers work.offers
  let e := e.pushNeeds work.needs
  work.pushes.foldl (fun e bound => (e.pushRows bound.1 bound.2 false).2) e

def initiate : Engine :=
  let e := { e with
    roundOpen := true
    history := { e.history with initiations := e.history.initiations + 1 } }
  e.processRanges triples

variable (ranges : List RangeFingerprint)

/-- Compares a hint's claims against the local aggregates and initiates over the
divergent subset. -/
def processHintRanges : Engine :=
  let divergent := ranges.filterMap fun range =>
    if e.rangeFingerprint range.start range.stop ≠ range.triple.peer then some range.triple
    else none
  if divergent.isEmpty then e else e.initiate divergent

def replayPendingHints : Engine :=
  if e.pendingHints.isEmpty then e
  else
    let pending := e.pendingHints
    pending.foldl processHintRanges { e with pendingHints := [] }

def closeRound : Engine :=
  let e := { e with roundOpen := false }
  let e := e.push e.doneMessage
  e.replayPendingHints

def closeRoundOnAgreement : Engine :=
  if e.roundOpen then e.closeRound else e

/-! ## Drives -/

def changedRanges : List RangeFingerprint :=
  (e.dirty.getD [(0, maxWord)]).map e.claim

/-- The local-change drive: one coalesced HINT over the changed ranges, with the
eager rows in the eager variant.  Returns how many messages were queued. -/
def driveLocalChange (eager : Bool) : ℕ × Engine :=
  let before := e.backlog.length
  let ranges := e.changedRanges
  let piggyback := if eager then eagerRows e.index 0 e.eager else []
  let e := { e with dirty := some [], eager := [] }
  let e := if ranges.isEmpty then e else e.push (.hint e.lane ranges piggyback)
  (e.backlog.length - before, e)

def announceRoot : Engine :=
  let e := { e with eager := [], awaitingResponse := false, pendingHints := [] }
  let root := e.index.root
  e.push (.root e.lane root.count root.xor)

/-- Closes on observed agreement with the last-seen peer root, or initiates from the
poorer side, replacing any open round. -/
def weighPeerRoot : Engine :=
  match e.peerRoot with
  | none => e
  | some peer =>
    if peer = e.index.root then e.closeRoundOnAgreement
    else if rootPrecedes e.index.root peer then e.initiate [⟨0, maxWord, peer⟩]
    else e

def driveRootExchange : ℕ × Engine :=
  let before := e.backlog.length
  let e := e.announceRoot.weighPeerRoot
  (e.backlog.length - before, e)

/-- A received ROOT: agreement closes the round, and only the poorer side of a
divergence initiates, against a closed round. -/
def receiveRoot (peer : Fingerprint) : Engine :=
  let held := e.index.root
  let e := { e with peerRoot := some peer }
  if peer = held then e.closeRoundOnAgreement
  else if !e.roundOpen && rootPrecedes held peer then e.initiate [⟨0, maxWord, peer⟩]
  else e

/-- The ranges of a received HINT: compared against a closed round, held against an
open one. -/
def receiveHintRanges : Engine :=
  if !e.roundOpen then e.processHintRanges ranges
  else if !ranges.isEmpty && decide (e.pendingHints.length < hintPendingMax) then
    { e with pendingHints := e.pendingHints ++ [ranges] }
  else e

/-- A received OFFER: answered range by range, or with DONE when it matched
everywhere. -/
def receiveOffer : Engine :=
  let before := e.backlog.length
  let e := e.processRanges (ranges.map RangeFingerprint.triple)
  if e.backlog.length = before then e.closeRound else e

def receiveNeed (bounds : List DigestRange) : Engine :=
  bounds.foldl (fun e bound => e.answerNeed bound.start bound.stop) e

def receiveDone : Engine :=
  let e := { e with roundOpen := false }
  e.replayPendingHints

section Digests

variable (sha256 : Hash) (e : Engine)

/-- Processes one received message; returns how many messages it queued.  A hint is
a notice, never the answer an open question waits for. -/
def applyMessage (message : Message) : Result ℕ × Engine :=
  if message.lane ≠ e.lane then (.error (.invalidInput "reconcile lane mismatch"), e)
  else
    let e :=
      match message with
      | .hint _ _ _ => e
      | _ => { e with awaitingResponse := false }
    let before := e.backlog.length
    match message with
    | .root _ count xor =>
      let e := e.receiveRoot ⟨count, xor⟩
      (.ok (e.backlog.length - before), e)
    | .hint _ ranges rows =>
      match e.applyRows sha256 rows with
      | (.error err, e) => (.error err, e)
      | (.ok (), e) =>
        let e := e.receiveHintRanges ranges
        (.ok (e.backlog.length - before), e)
    | .offer _ ranges =>
      let e := e.receiveOffer ranges
      (.ok (e.backlog.length - before), e)
    | .need _ bounds =>
      let e := e.receiveNeed bounds
      (.ok (e.backlog.length - before), e)
    | .rows _ rows =>
      match e.applyRows sha256 rows with
      | (.error err, e) => (.error err, e)
      | (.ok (), e) => (.ok (e.backlog.length - before), e)
    | .done _ _ =>
      let e := e.receiveDone
      (.ok (e.backlog.length - before), e)

def accept : Drive → Result ℕ × Engine
  | .drain => (.ok 0, e)
  | .message message => e.applyMessage sha256 message
  | .localChange => let (generated, e) := e.driveLocalChange false; (.ok generated, e)
  | .localChangeEager => let (generated, e) := e.driveLocalChange true; (.ok generated, e)
  | .rootExchange => let (generated, e) := e.driveRootExchange; (.ok generated, e)

def drainBacklog (out : List Message) : List Message × Engine :=
  let room := messageBudgetPerDrive - out.length
  (out ++ e.backlog.take room, { e with backlog := e.backlog.drop room })

def settle (generated : ℕ) : Engine :=
  if e.roundOpen && !e.awaitingResponse && e.backlog.isEmpty && generated == 0 then e.closeRound
  else e

def expireNeeds : Engine :=
  if e.backlog.isEmpty then { e with pendingNeeds := [] } else e

/-- Drives the engine: returns the messages to send the peer.  A failing input has
already drained its messages, and they are lost with the error. -/
def drive (input : Drive) : Result (List Message) × Engine :=
  let e := e.expireNeeds
  let (out, e) := e.drainBacklog []
  match e.accept sha256 input with
  | (.error err, e) => (.error err, e)
  | (.ok generated, e) =>
    let (out, e) := e.drainBacklog out
    let e := e.settle generated
    let (out, e) := e.drainBacklog out
    (.ok out, e)

end Digests

end Engine

end Radiata.Reconcile
