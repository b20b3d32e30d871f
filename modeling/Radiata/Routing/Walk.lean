import Radiata.Packet.Wire

/-!
# Walks of one packet

A packet is dispatched by its origin and then received and forwarded hop by hop, each
hop planning only when the carried path is exhausted; a hop whose branch failed sends
the same envelope, its path dropped, to another neighbour.  Plans are any the route
boundary accepts, so a walk may come back to a node.

The visited chain is the list of holders before the current one.  A frame is therefore
readable by the next hop exactly when those holders are pairwise different: the wire
decoder refuses the backtracking walks that the envelope permits.
-/

namespace Radiata.Routing

open Lib Packet

/-- A legal walk: who held the packet so far, in order, who receives it next, and the
envelope on its way there. -/
inductive Walk : List NodeId → NodeId → RouteContext → Prop
  | dispatch (traceId : TraceId) (source destination : NodeId) (path : List NodeId)
      (maxHops : UInt32) {nextHop : NodeId} {ctx : RouteContext}
      (hplan : validatePlannedPath path maxHops = .ok ())
      (h : (RouteContext.new traceId source destination path maxHops).dispatch =
        .ok (nextHop, ctx)) :
      Walk [source] nextHop ctx
  | relay {holders : List NodeId} {self nextHop : NodeId} {ctx next : RouteContext} (peer : NodeId)
      (plan : RouteContext → Result (List NodeId)) (hwalk : Walk holders self ctx)
      (h : ctx.receive self peer plan = .ok (.continue nextHop next)) :
      Walk (holders ++ [self]) nextHop next
  | redispatch {holders : List NodeId} {nextHop candidate : NodeId} {ctx : RouteContext}
      (hwalk : Walk holders nextHop ctx) : Walk holders candidate ctx.replanned

namespace Walk

variable {holders : List NodeId} {nextHop : NodeId} {ctx : RouteContext}

lemma holders_eq (h : Walk holders nextHop ctx) :
    ctx.hop.visited ++ [ctx.hop.current] = holders := by
  induction h with
  | dispatch _ _ _ _ _ _ h =>
    obtain ⟨rest, -, rfl⟩ := RouteContext.dispatch_ok h
    rfl
  | relay _ _ _ h ih =>
    obtain ⟨-, -, -, remaining, -, rfl⟩ := RouteContext.receive_continue h
    show (_ ++ [_]) ++ [_] = _
    rw [ih]
    rfl
  | redispatch _ ih => exact ih

lemma path_nodup (h : Walk holders nextHop ctx) : ctx.hop.path.Nodup := by
  induction h with
  | @dispatch _ _ _ path _ nextHop _ hplan h =>
    obtain ⟨rest, hpath, rfl⟩ := RouteContext.dispatch_ok h
    have hnodup : path.Nodup := (validatePlannedPath_ok hplan).2.2
    have hpath : path = nextHop :: rest := hpath
    rw [hpath] at hnodup
    exact (List.nodup_cons.mp hnodup).2
  | relay _ _ _ h ih =>
    obtain ⟨-, -, -, remaining, hfollow, rfl⟩ := RouteContext.receive_continue h
    -- The path followed is the carried one or a validated plan.
    rcases RouteContext.pathToFollow_ok hfollow with ⟨-, hpath⟩ | ⟨-, -, hvalid⟩
    · rw [← hpath] at ih
      exact (List.nodup_cons.mp ih).2
    · exact (List.nodup_cons.mp (validatePlannedPath_ok hvalid).2.2).2
  | redispatch => exact List.nodup_nil

/-- **A forwarded frame is read by the next hop exactly when no node held the packet
twice before the current holder.** -/
theorem readable_iff (h : Walk holders nextHop ctx) {frame : OpenFrame} {bytes : List UInt8}
    (hroute : frame.route = some ctx.hop) (hencode : encodeOpen frame = .ok bytes) :
    decodeOpen bytes packetCborLimits = .ok frame ↔ holders.dropLast.Nodup := by
  rw [decodeOpen_encodeOpen hencode, ← h.holders_eq, List.dropLast_concat, hroute]
  constructor
  · intro hhop
    exact (hhop ctx.hop rfl).1
  · intro hvisited hop hhop
    obtain rfl := Option.some.inj hhop
    exact ⟨hvisited, h.path_nodup⟩

end Walk

/-! ## A backtracking walk -/

def sampleNode (n : Fin 6) : NodeId :=
  ⟨"node-00000000000000000000".toList ++ [Char.ofNat (48 + n)], by revert n; decide +kernel⟩

def sampleTrace : TraceId := ⟨"trace-000000000000000000000".toList, by decide +kernel⟩

def sampleProtocol : Protocol.ProtocolTag :=
  ⟨⟨"a.b/protocols/p".toList, 3, 13, none, by decide +kernel⟩, by decide +kernel⟩

def sampleFrame (ctx : RouteContext) : OpenFrame :=
  ⟨ctx.traceId, ctx.source, ctx.destination, sampleProtocol, .new, some ctx.hop⟩

/-- The envelope on its way from the given holder after the given chain, with six hops
allowed in all. -/
def sampleEnvelope (visited : List (Fin 6)) (current : Fin 6) (remaining : UInt32)
    (path : List (Fin 6)) : RouteContext :=
  ⟨sampleTrace, sampleNode 0, sampleNode 5,
    ⟨sampleNode current, visited.map sampleNode, remaining, path.map sampleNode⟩⟩

lemma backtracking_walk :
    Walk ([0].map sampleNode) (sampleNode 1) (sampleEnvelope [] 0 6 [2]) ∧
      Walk ([0, 1].map sampleNode) (sampleNode 2) (sampleEnvelope [0] 1 5 []) ∧
      Walk ([0, 1, 2].map sampleNode) (sampleNode 3) (sampleEnvelope [0, 1] 2 4 [1, 4, 5]) ∧
      Walk ([0, 1, 2, 3].map sampleNode) (sampleNode 1) (sampleEnvelope [0, 1, 2] 3 3 [4, 5]) ∧
      Walk ([0, 1, 2, 3, 1].map sampleNode) (sampleNode 4) (sampleEnvelope [0, 1, 2, 3] 1 2 [5]) ∧
      Walk ([0, 1, 2, 3, 1, 4].map sampleNode) (sampleNode 5)
        (sampleEnvelope [0, 1, 2, 3, 1] 4 1 []) := by
  let plan : RouteContext → Result (List NodeId) := fun _ => .ok ([3, 1, 4, 5].map sampleNode)
  have h0 : Walk ([0].map sampleNode) (sampleNode 1) (sampleEnvelope [] 0 6 [2]) :=
    .dispatch sampleTrace (sampleNode 0) (sampleNode 5) ([1, 2].map sampleNode) 6
      (by decide +kernel)
      (by decide +kernel)
  have h1 : Walk ([0, 1].map sampleNode) (sampleNode 2) (sampleEnvelope [0] 1 5 []) :=
    .relay (sampleNode 0) plan h0 (by decide +kernel)
  have h2 : Walk ([0, 1, 2].map sampleNode) (sampleNode 3) (sampleEnvelope [0, 1] 2 4 [1, 4, 5]) :=
    .relay (sampleNode 1) plan h1 (by decide +kernel)
  have h3 : Walk ([0, 1, 2, 3].map sampleNode) (sampleNode 1)
      (sampleEnvelope [0, 1, 2] 3 3 [4, 5]) :=
    .relay (sampleNode 2) plan h2 (by decide +kernel)
  have h4 : Walk ([0, 1, 2, 3, 1].map sampleNode) (sampleNode 4)
      (sampleEnvelope [0, 1, 2, 3] 1 2 [5]) :=
    .relay (sampleNode 3) plan h3 (by decide +kernel)
  exact ⟨h0, h1, h2, h3, h4, .relay (sampleNode 1) plan h4 (by decide +kernel)⟩

lemma exists_of_isSome {α : Type} {x : Result α} (h : x.toOption.isSome = true) :
    ∃ a, x = .ok a := by
  cases x with
  | error e => cases h
  | ok a => exact ⟨a, rfl⟩

/-- The frame of the walk's second visit to node 1 is still read. -/
theorem readable_while_backtracking : ∃ bytes,
    encodeOpen (sampleFrame (sampleEnvelope [0, 1, 2, 3] 1 2 [5])) = .ok bytes ∧
      decodeOpen bytes packetCborLimits =
        .ok (sampleFrame (sampleEnvelope [0, 1, 2, 3] 1 2 [5])) := by
  obtain ⟨-, -, -, -, hwalk, -⟩ := backtracking_walk
  obtain ⟨bytes, hencode⟩ : ∃ bytes,
      encodeOpen (sampleFrame (sampleEnvelope [0, 1, 2, 3] 1 2 [5])) = .ok bytes :=
    exists_of_isSome (by decide +kernel)
  exact ⟨bytes, hencode, (hwalk.readable_iff rfl hencode).mpr (by decide +kernel)⟩

/-- **A legal walk is killed at its destination**: after coming back through node 1, the
frame that node 4 sends to the destination encodes, with budget left, and is refused. -/
theorem backtracking_frame_refused :
    Walk ([0, 1, 2, 3, 1, 4].map sampleNode) (sampleNode 5)
      (sampleEnvelope [0, 1, 2, 3, 1] 4 1 []) ∧
      (sampleEnvelope [0, 1, 2, 3, 1] 4 1 []).destination = sampleNode 5 ∧
      ∃ bytes, encodeOpen (sampleFrame (sampleEnvelope [0, 1, 2, 3, 1] 4 1 [])) = .ok bytes ∧
        decodeOpen bytes packetCborLimits = .error (.invalidInput "packet route chain") := by
  obtain ⟨-, -, -, -, -, hwalk⟩ := backtracking_walk
  obtain ⟨bytes, hencode⟩ : ∃ bytes,
      encodeOpen (sampleFrame (sampleEnvelope [0, 1, 2, 3, 1] 4 1 [])) = .ok bytes :=
    exists_of_isSome (by decide +kernel)
  refine ⟨hwalk, rfl, bytes, hencode, ?_⟩
  rw [decodeOpen, Protocol.decodeCanonicalStrict_of_encode _ hencode, ok_bind]
  decide +kernel

end Radiata.Routing
