import Radiata.Identity.Id

/-!
# The route envelope

The per-hop routing state of a packet and its transitions: the origin's dispatch, the
checked decision of a receiving node, the advance when it forwards, and the reset
before an alternative branch.  The plan of a hop that received an exhausted path is a
parameter.
-/

namespace Radiata.Routing

open Lib

structure HopState where
  current : NodeId
  visited : List NodeId
  remainingHops : UInt32
  path : List NodeId
deriving DecidableEq

structure RouteContext where
  traceId : TraceId
  source : NodeId
  destination : NodeId
  hop : HopState
deriving DecidableEq

inductive RouteProgress where
  | arrive
  | continue (nextHop : NodeId) (context : RouteContext)
deriving DecidableEq

variable (path : List NodeId)

def pathDuplicateFree : Bool := path.dedup.length == path.length

@[simp] lemma pathDuplicateFree_iff {path : List NodeId} :
    pathDuplicateFree path = true ↔ path.Nodup := by
  rw [pathDuplicateFree, beq_iff_eq]
  constructor
  · intro h
    rw [← List.dedup_eq_self]
    exact (List.dedup_sublist path).eq_of_length h
  · intro h
    rw [h.dedup]

def pathEntryBound (maxHops : UInt32) : ℕ := maxHops.toNat + 1

def validatePathShape (maxEntries : ℕ) (context : String) : Result Unit := do
  require (path ≠ []) (.invalidInput context)
  require (path.length ≤ maxEntries) (.resourceExhausted context)
  require (pathDuplicateFree path) (.invalidInput context)

def validatePlannedPath (remainingHops : UInt32) : Result Unit :=
  validatePathShape path (pathEntryBound remainingHops) "route path"

lemma validatePlannedPath_ok {path : List NodeId} {remainingHops : UInt32}
    (h : validatePlannedPath path remainingHops = .ok ()) :
    path ≠ [] ∧ path.length ≤ remainingHops.toNat + 1 ∧ path.Nodup := by
  obtain ⟨hne, h⟩ := require_bind_eq_ok.mp h
  obtain ⟨hlen, h⟩ := require_bind_eq_ok.mp h
  exact ⟨hne, hlen, pathDuplicateFree_iff.mp (require_eq_ok.mp h)⟩

namespace RouteContext

def new (traceId : TraceId) (source destination : NodeId) (path : List NodeId) (maxHops : UInt32) :
    RouteContext :=
  ⟨traceId, source, destination, ⟨source, [], maxHops, path⟩⟩

section

variable (ctx : RouteContext)

def replanned : RouteContext := { ctx with hop.path := [] }

def fromFrame (traceId : TraceId) (source destination : NodeId) : Option HopState → RouteContext
  | some hop => ⟨traceId, source, destination, hop⟩
  | none => new traceId source destination [] 1

def dispatch : Result (NodeId × RouteContext) :=
  match ctx.hop.path with
  | [] => .error (.invalidInput "route path")
  | nextHop :: rest => .ok (nextHop, { ctx with hop.path := rest })

def forward (self : NodeId) (remaining : List NodeId) : RouteContext :=
  { ctx with
    hop := ⟨self, ctx.hop.visited ++ [ctx.hop.current],
      UInt32.ofNat (ctx.hop.remainingHops.toNat - 1), remaining⟩ }

def pathToFollow (plan : RouteContext → Result (List NodeId)) : Result (List NodeId) :=
  if ctx.hop.path = [] then do
    let planned ← plan ctx
    validatePlannedPath planned ctx.hop.remainingHops
    pure planned
  else pure ctx.hop.path

def receive (self peer : NodeId)
    (plan : RouteContext → Result (List NodeId)) : Result RouteProgress := do
  require (ctx.hop.current = peer) (.notTrusted "route holder")
  if ctx.destination = self then pure .arrive
  else do
    require (ctx.hop.remainingHops ≠ 0) (.resourceExhausted "route hops")
    match ← pathToFollow ctx plan with
    | [] => throw (.invalidInput "route path")
    | nextHop :: remaining => pure (.continue nextHop (ctx.forward self remaining))

end

variable {ctx next : RouteContext} {nextHop : NodeId}

lemma dispatch_ok (h : ctx.dispatch = .ok (nextHop, next)) :
    ∃ rest, ctx.hop.path = nextHop :: rest ∧ next = { ctx with hop.path := rest } := by
  unfold dispatch at h
  split at h
  · cases h
  · next head rest hpath =>
      obtain ⟨rfl, rfl⟩ := Prod.mk.inj (Except.ok.inj h)
      exact ⟨rest, hpath, rfl⟩

variable {plan : RouteContext → Result (List NodeId)}

lemma pathToFollow_ok {path : List NodeId} (h : ctx.pathToFollow plan = .ok path) :
    (ctx.hop.path ≠ [] ∧ path = ctx.hop.path) ∨
      ctx.hop.path = [] ∧ plan ctx = .ok path ∧
        validatePlannedPath path ctx.hop.remainingHops = .ok () := by
  unfold pathToFollow at h
  split_ifs at h with hpath
  · obtain ⟨planned, hplan, h⟩ := bind_eq_ok.mp h
    obtain ⟨_, hvalid, h⟩ := bind_eq_ok.mp h
    obtain rfl := Except.ok.inj h
    exact Or.inr ⟨hpath, hplan, hvalid⟩
  · exact Or.inl ⟨hpath, (Except.ok.inj h).symm⟩

/-- What a continuation did: the head of the path followed becomes the next hop, and
the budget was not spent. -/
theorem receive_continue {self peer : NodeId}
    (h : ctx.receive self peer plan = .ok (.continue nextHop next)) :
    ctx.hop.current = peer ∧ ctx.destination ≠ self ∧ ctx.hop.remainingHops ≠ 0 ∧
      ∃ remaining, ctx.pathToFollow plan = .ok (nextHop :: remaining) ∧
        next = ctx.forward self remaining := by
  unfold receive at h
  obtain ⟨hpeer, h⟩ := require_bind_eq_ok.mp h
  split_ifs at h with hdest
  · cases h
  obtain ⟨hbudget, h⟩ := require_bind_eq_ok.mp h
  obtain ⟨path, hpath, h⟩ := bind_eq_ok.mp h
  split at h
  · cases h
  · next head remaining =>
      obtain ⟨rfl, rfl⟩ := RouteProgress.continue.inj (Except.ok.inj h)
      exact ⟨hpeer, hdest, hbudget, remaining, hpath, rfl⟩

end RouteContext

end Radiata.Routing
