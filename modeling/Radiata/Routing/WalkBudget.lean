import Radiata.Routing.Walk

/-!
# The budget and the chain of a routed walk

An origin starts a packet with a path and a hop budget.  Every node that receives it follows the
carried path or a plan of its own, and a node whose branch failed sends the same envelope
elsewhere.  Whatever the plans are, each relay spends one unit of the budget and joins the chain,
so the chain in the envelope is the chain of nodes that held the packet, and its last one is the
peer that the next node authenticated.

A direct delivery carries no route state; the receiver rebuilds the envelope of a walk with an
empty path and one hop.
-/

namespace Radiata.Routing

open Lib

structure RouteOrigin where
  traceId : TraceId
  source : NodeId
  destination : NodeId
  path : List NodeId
  maxHops : UInt32

namespace RouteOrigin

def envelope (o : RouteOrigin) : RouteContext :=
  .new o.traceId o.source o.destination o.path o.maxHops

def holder (o : RouteOrigin) (relays : List NodeId) : NodeId := relays.getLastD o.source

end RouteOrigin

/-- A walk of honest nodes: who relayed the packet so far, in order, who receives it next, and the
envelope on its way there.  A receiver authenticates the node that holds the packet and reads the
envelope from its frame. -/
inductive RoutedWalk (o : RouteOrigin) : List NodeId → NodeId → RouteContext → Prop
  | dispatch {nextHop : NodeId} {ctx : RouteContext}
      (h : o.envelope.dispatch = .ok (nextHop, ctx)) : RoutedWalk o [] nextHop ctx
  | direct (nextHop : NodeId) (hpath : o.path = []) (hhops : o.maxHops = 1) :
      RoutedWalk o [] nextHop (.fromFrame o.traceId o.source o.destination none)
  | relay {relays : List NodeId} {self nextHop : NodeId} {ctx next : RouteContext}
      (plan : RouteContext → Result (List NodeId)) (hwalk : RoutedWalk o relays self ctx)
      (h : (RouteContext.fromFrame ctx.traceId ctx.source ctx.destination (some ctx.hop)).receive
        self (o.holder relays) plan = .ok (.continue nextHop next)) :
      RoutedWalk o (relays ++ [self]) nextHop next
  | redispatch {relays : List NodeId} {nextHop : NodeId} {ctx : RouteContext} (candidate : NodeId)
      (hwalk : RoutedWalk o relays nextHop ctx) : RoutedWalk o relays candidate ctx.replanned

structure Faithful (o : RouteOrigin) (relays : List NodeId) (ctx : RouteContext) : Prop where
  budget : ctx.hop.remainingHops.toNat + relays.length = o.maxHops.toNat
  chain : ctx.hop.visited ++ [ctx.hop.current] = o.source :: relays
  traceId : ctx.traceId = o.traceId
  source : ctx.source = o.source
  destination : ctx.destination = o.destination

namespace Faithful

variable {o : RouteOrigin} {relays : List NodeId} {ctx : RouteContext}

lemma congr {other : RouteContext} (h : Faithful o relays ctx)
    (hother : other = { ctx with hop.path := other.hop.path }) : Faithful o relays other := by
  rw [hother]
  exact ⟨h.budget, h.chain, h.traceId, h.source, h.destination⟩

lemma envelope (o : RouteOrigin) : Faithful o [] o.envelope :=
  ⟨rfl, rfl, rfl, rfl, rfl⟩

section

variable (h : Faithful o relays ctx)
include h

lemma forward (hbudget : ctx.hop.remainingHops ≠ 0) (self : NodeId) (remaining : List NodeId) :
    Faithful o (relays ++ [self]) (ctx.forward self remaining) where
  budget := by
    have hpos : 0 < ctx.hop.remainingHops.toNat :=
      Nat.pos_of_ne_zero fun hzero => hbudget (UInt32.toNat_inj.mp hzero)
    have hlt : ctx.hop.remainingHops.toNat - 1 < 2 ^ 32 :=
      (Nat.sub_le _ _).trans_lt ctx.hop.remainingHops.toNat_lt
    have hbudget := h.budget
    show (UInt32.ofNat (ctx.hop.remainingHops.toNat - 1)).toNat + _ = _
    rw [UInt32.toNat_ofNat_of_lt' hlt, List.length_append, List.length_singleton]
    omega
  chain := by
    show (ctx.hop.visited ++ [ctx.hop.current]) ++ [self] = _
    rw [h.chain]
    rfl
  traceId := h.traceId
  source := h.source
  destination := h.destination

lemma visited_eq : ctx.hop.visited = (o.source :: relays).dropLast := by
  rw [← h.chain, List.dropLast_concat]

lemma current_eq : ctx.hop.current = o.holder relays := by
  have hlast := congrArg (List.getLastD · o.source) h.chain
  rwa [List.getLastD_concat, List.getLastD_cons] at hlast

end

end Faithful

lemma RoutedWalk.faithful {o : RouteOrigin} {relays : List NodeId} {nextHop : NodeId}
    {ctx : RouteContext} (h : RoutedWalk o relays nextHop ctx) : Faithful o relays ctx := by
  induction h with
  | dispatch h =>
    obtain ⟨rest, -, rfl⟩ := RouteContext.dispatch_ok h
    exact (Faithful.envelope o).congr rfl
  | direct _ hpath hhops =>
    have henvelope : RouteContext.fromFrame o.traceId o.source o.destination none = o.envelope := by
      rw [RouteOrigin.envelope, hpath, hhops]
      rfl
    rw [henvelope]
    exact Faithful.envelope o
  | relay _ _ h ih =>
    obtain ⟨-, -, hbudget, remaining, -, rfl⟩ := RouteContext.receive_continue h
    exact ih.forward hbudget _ remaining
  | redispatch _ _ ih => exact ih.congr rfl

/-- **A routed walk is bounded and authentic**, whatever its nodes plan: the hops left and the
relays so far add up to the budget, the visited list is the chain of holders before the current
one, the recorded holder is the node that the receiver authenticates, and the walk's identity stays
as it was. -/
theorem routed_walk_bounded {o : RouteOrigin} {relays : List NodeId} {nextHop : NodeId}
    {ctx : RouteContext} (h : RoutedWalk o relays nextHop ctx) :
    ctx.hop.remainingHops.toNat + relays.length = o.maxHops.toNat ∧
      relays.length ≤ o.maxHops.toNat ∧
      ctx.hop.visited = (o.source :: relays).dropLast ∧
      ctx.hop.current = o.holder relays ∧
      (∀ peer plan progress, ctx.receive nextHop peer plan = .ok progress →
        peer = o.holder relays) ∧
      ctx.traceId = o.traceId ∧ ctx.source = o.source ∧ ctx.destination = o.destination := by
  have hfaithful := h.faithful
  have hbudget := hfaithful.budget
  refine ⟨hbudget, by omega, hfaithful.visited_eq, hfaithful.current_eq, ?_, hfaithful.traceId,
    hfaithful.source, hfaithful.destination⟩
  intro peer plan progress hreceive
  obtain ⟨hpeer, -⟩ := require_bind_eq_ok.mp hreceive
  rw [← hpeer, hfaithful.current_eq]

def sampleOrigin : RouteOrigin :=
  ⟨sampleTrace, sampleNode 0, sampleNode 5, [1, 2].map sampleNode, 6⟩

/-- The second node of the path receives an exhausted path and plans further. -/
theorem sample_walk_bounded :
    RoutedWalk sampleOrigin [sampleNode 1, sampleNode 2] (sampleNode 3)
        (sampleEnvelope [0, 1] 2 4 [1, 4, 5]) ∧
      (4 : UInt32).toNat + [sampleNode 1, sampleNode 2].length = (6 : UInt32).toNat := by
  have h0 : RoutedWalk sampleOrigin [] (sampleNode 1) (sampleEnvelope [] 0 6 [2]) :=
    .dispatch (by decide +kernel)
  have h1 : RoutedWalk sampleOrigin [sampleNode 1] (sampleNode 2) (sampleEnvelope [0] 1 5 []) :=
    h0.relay (fun _ => .ok []) (by decide +kernel)
  have h2 : RoutedWalk sampleOrigin [sampleNode 1, sampleNode 2] (sampleNode 3)
      (sampleEnvelope [0, 1] 2 4 [1, 4, 5]) :=
    h1.relay (fun _ => .ok ([3, 1, 4, 5].map sampleNode)) (by decide +kernel)
  exact ⟨h2, (routed_walk_bounded h2).1⟩

end Radiata.Routing
