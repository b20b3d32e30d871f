import Radiata.Reconcile.Plane

/-!
# One negotiation per lane

A node starts a negotiation of a lane by driving a root exchange or a hint into one of the
lane's engines.  The prime, the cadence and the delivery of a hint first ask whether the
engine of another peer has an open round, and hold their work when it has.  The release of
held work asks once, before the first entry it drives: an entry that opens a round does not
hold back the ones behind it.

The plane's state is guarded by one lock, so what can interleave are the sections that run
under it.  A tick and a delivery are sequences of such sections.  Each section is followed drive
by drive: between the hints and root exchanges it drives, rows come and go, peers are retired and
other inputs are driven, and nothing else happens to an engine.
-/

namespace Radiata.Reconcile

open Lib Identity Storage

/-! ## Runs and what they pass through -/

section Visits

variable {S α : Type} (step : S → α → S)

/-- The states a loop passes through, each with the item it then takes. -/
def visits : S → List α → List (S × α)
  | _, [] => []
  | s, a :: as => (s, a) :: visits (step s a) as

variable {step}

lemma mem_visits {s p : S} {a : α} {as : List α} : (p, a) ∈ visits step s as ↔
    ∃ before after, as = before ++ a :: after ∧ p = before.foldl step s := by
  induction as generalizing s with
  | nil => simp [visits]
  | cons b as ih =>
    rw [visits, List.mem_cons, ih]
    constructor
    · rintro (heq | ⟨before, after, rfl, rfl⟩)
      · obtain ⟨rfl, rfl⟩ := Prod.mk.inj heq
        exact ⟨[], as, rfl, rfl⟩
      · exact ⟨b :: before, after, rfl, rfl⟩
    · rintro ⟨before, after, hsplit, rfl⟩
      rcases before with - | ⟨first, before⟩
      · obtain ⟨rfl, rfl⟩ := List.cons.inj hsplit
        exact .inl rfl
      · obtain ⟨rfl, rfl⟩ := List.cons.inj hsplit
        exact .inr ⟨before, after, rfl, rfl⟩

end Visits

/-- A loop that gathers output goes through the states of the loop without it. -/
lemma foldl_snd {O S α : Type} (join : O → O → O) (f : S → α → O × S) (as : List α) (out : O)
    (s : S) : (as.foldl (fun acc a => (join acc.1 (f acc.2 a).1, (f acc.2 a).2)) (out, s)).2 =
      as.foldl (fun s a => (f s a).2) s := by
  induction as generalizing out s with
  | nil => rfl
  | cons a as ih => exact ih _ _

lemma PlaneState.runAll_snd {α : Type} (f : PlaneState → α → Outbound × PlaneState)
    (plane : PlaneState) (steps : List α) :
    (runAll f plane steps).2 = steps.foldl (fun p a => (f p a).2) plane :=
  foldl_snd (· ++ ·) f steps [] plane

/-! ## Open rounds -/

variable {plane : PlaneState} {lane : LaneId} {peer : NodeId}

namespace PlaneState

/-- Whether the round of a lane with this peer is open. -/
def openWith (plane : PlaneState) (peer : NodeId) (lane : LaneId) : Bool :=
  ((plane.peers.get? peer).bind fun state => state.engines lane).any Engine.roundOpen

lemma laneInRound_iff {except : Option NodeId} : plane.laneInRound lane except = true ↔
    ∃ peer, some peer ≠ except ∧ plane.openWith peer lane = true := by
  unfold laneInRound openWith
  rw [List.any_eq_true]
  constructor
  · rintro ⟨⟨peer, state⟩, hmem, hopen⟩
    obtain ⟨hpeer, hopen⟩ := Bool.and_eq_true_iff.mp hopen
    refine ⟨peer, of_decide_eq_true hpeer, ?_⟩
    rw [OrdMap.get?_eq_some.mpr hmem]
    exact hopen
  · rintro ⟨peer, hpeer, hopen⟩
    cases hstate : plane.peers.get? peer with
    | none =>
      rw [hstate] at hopen
      cases hopen
    | some state =>
      rw [hstate] at hopen
      exact ⟨(peer, state), OrdMap.get?_eq_some.mp hstate,
        Bool.and_eq_true_iff.mpr ⟨decide_eq_true hpeer, hopen⟩⟩

end PlaneState

/-! ## Engines of a peer -/

namespace PeerState

variable {state next last : PeerState}

lemma engine_modify_self (f : Engine → Engine) :
    (state.modify lane f).engine lane = f (state.engine lane) := by
  simp [engine, modify]

lemma engine_modify_of_ne {other : LaneId} (h : other ≠ lane) (f : Engine → Engine) :
    (state.modify lane f).engine other = state.engine other := by
  simp [engine, modify, Function.update_of_ne h]

/-- Rows came to the engines or left them, and nothing else happened. -/
structure Refilled (state next : PeerState) : Prop where
  engine : ∀ lane, Engine.Refills (state.engine lane) (next.engine lane)
  primed : next.primed = state.primed

lemma Refilled.refl (state : PeerState) : Refilled state state := ⟨fun _ => .refl _, rfl⟩

lemma Refilled.trans (h : Refilled state next) (h' : Refilled next last) : Refilled state last :=
  ⟨fun lane => (h.engine lane).trans (h'.engine lane), h'.primed.trans h.primed⟩

lemma Refilled.foldl {α : Type} {f : PeerState → α → PeerState} (h : ∀ p a, Refilled p (f p a))
    (steps : List α) (state : PeerState) : Refilled state (steps.foldl f state) := by
  induction steps generalizing state with
  | nil => exact .refl state
  | cons a steps ih => exact (h state a).trans (ih _)

lemma Refilled.modify {f : Engine → Row → Engine} (h : ∀ e row, Engine.Refills e (f e row))
    (lane : LaneId) (rows : Engine → List Row) :
    Refilled state (state.modify lane fun e => (rows e).foldl f e) := by
  refine ⟨fun other => ?_, rfl⟩
  by_cases hother : other = lane
  · subst hother
    rw [engine_modify_self]
    exact List.foldlRecOn (motive := Engine.Refills (state.engine other)) _ _ (.refl _)
      fun e he row _ => he.trans (h e row)
  · rw [engine_modify_of_ne hother]
    exact .refl _

variable (sha256 : Hash)

lemma insertRows_refilled (lane : LaneId) (rows : List Row) :
    Refilled state (state.insertRows sha256 lane rows) :=
  .modify (fun e row => Engine.insertRowInner_refills sha256 e row.key row.content true) lane _

lemma insertRowsQuiet_refilled (lane : LaneId) (rows : List Row) :
    Refilled state (state.insertRowsQuiet sha256 lane rows) :=
  .modify (fun e row => Engine.insertRowInner_refills sha256 e row.key row.content false) lane _

lemma feed_refilled (scan : LaneScan) (state : PeerState) :
    Refilled state (feed sha256 scan state) := by
  refine .foldl (fun p entry => ?_) scan state
  exact insertRows_refilled sha256 entry.1 entry.2

lemma pruneLanes_refilled {σ : Type} (host : Host σ) (basis : SweptBasis) (scan : LaneScan)
    (checkpoint : Option Millis) (lanes : List LaneId) (state : PeerState) :
    Refilled state (lanes.foldl (pruneLane sha256 host basis scan checkpoint) state) := by
  refine .foldl (fun p lane => ?_) lanes state
  unfold pruneLane
  split
  · exact .refl p
  · exact .modify (fun e row => Engine.removeRow_refills sha256 e row.key row.content) lane _

lemma driveAll_snd (input : Drive) (lanes : List LaneId) (state : PeerState) :
    (state.driveAll sha256 input lanes).2 =
      lanes.foldl (fun p lane => (p.drive sha256 lane input).2) state :=
  foldl_snd (· ++ ·) (fun (p : PeerState) lane => p.drive sha256 lane input) lanes [] state

lemma driveAll_primed (input : Drive) (lanes : List LaneId) (state : PeerState) :
    (state.driveAll sha256 input lanes).2.primed = state.primed := by
  rw [driveAll_snd]
  exact List.foldlRecOn (motive := fun p : PeerState => p.primed = state.primed) lanes _ rfl
    fun _ hp _ _ => hp

end PeerState

/-! ## Inputs that open no round -/

namespace Engine

/-- Whether an input may open a closed round: a hint with rows or with a range that differs from
the engine's own, a root exchange where the root last seen of the peer is the richer one, and any
other message. -/
def mayOpen (e : Engine) : Drive → Bool
  | .message (.hint _ ranges rows) => !rows.isEmpty ||
      ranges.any fun range => e.rangeFingerprint range.start range.stop ≠ range.triple.peer
  | .message _ => true
  | .rootExchange =>
    e.peerRoot.any fun peer => peer ≠ e.index.root && rootPrecedes e.index.root peer
  | .localChange | .localChangeEager | .drain => false

/-- The engine stays out of a round, with its rows and the root last seen of the peer. -/
structure Rests (e e' : Engine) : Prop where
  closed : e'.roundOpen = false
  index : e'.index = e.index
  peerRoot : e'.peerRoot = e.peerRoot
  initiations : e'.history.initiations = e.history.initiations

variable {e e' e'' : Engine} {input : Drive}

lemma Rests.refl (h : e.roundOpen = false) : Rests e e := ⟨h, rfl, rfl, rfl⟩

lemma Rests.trans (h : Rests e e') (h' : Rests e' e'') : Rests e e'' :=
  ⟨h'.closed, h'.index.trans h.index, h'.peerRoot.trans h.peerRoot,
    h'.initiations.trans h.initiations⟩

lemma Rests.mayOpen (h : Rests e e') : e'.mayOpen input = e.mayOpen input := by
  cases input with
  | message m =>
    cases m with
    | hint =>
      have hrange (start stop : UInt64) :
          e'.rangeFingerprint start stop = e.rangeFingerprint start stop := by
        rw [rangeFingerprint, rangeFingerprint, h.index]
      simp only [Engine.mayOpen, hrange]
    | root | offer | need | rows | done => rfl
  | rootExchange => simp only [Engine.mayOpen, h.index, h.peerRoot]
  | localChange | localChangeEager | drain => rfl

lemma Rests.weighPeerRoot (h : Rests e e') (hinput : e'.mayOpen .rootExchange = false) :
    Rests e e'.weighPeerRoot := by
  unfold Engine.weighPeerRoot
  cases hpeer : e'.peerRoot with
  | none => exact h
  | some peer =>
    simp only [Engine.mayOpen, hpeer, Option.any_some, Bool.and_eq_false_iff,
      decide_eq_false_iff_not,
      not_not] at hinput
    dsimp only
    split_ifs with hsame hprecedes
    · rw [closeRoundOnAgreement, if_neg (by simp [h.closed])]
      exact h
    · simp [hsame, hprecedes] at hinput
    · exact h

lemma Rests.receiveHintRanges {lane : LaneId} {ranges : List RangeFingerprint} (h : Rests e e')
    (hinput : e'.mayOpen (.message (.hint lane ranges [])) = false) :
    Rests e (e'.receiveHintRanges ranges) := by
  rw [Engine.mayOpen, Bool.or_eq_false_iff] at hinput
  have hagrees : (ranges.filterMap fun range =>
      if e'.rangeFingerprint range.start range.stop ≠ range.triple.peer then some range.triple
      else none) = [] := by
    rw [List.filterMap_eq_nil_iff]
    intro range hrange
    have hsame := List.any_eq_false.mp hinput.2 range hrange
    rw [if_neg (by simpa using hsame)]
  rw [Engine.receiveHintRanges, if_pos (by simp [h.closed]), processHintRanges, hagrees]
  exact h

/-- **An engine out of a round rests** under an input that opens none. -/
theorem drive_rests (sha256 : Hash) (hclosed : e.roundOpen = false)
    (hinput : e.mayOpen input = false) : Rests e (e.drive sha256 input).2 := by
  have hopened : Rests e e.opened := by
    unfold opened expireNeeds
    split_ifs <;> exact ⟨hclosed, rfl, rfl, rfl⟩
  rw [← hopened.mayOpen] at hinput
  refine drive_keeps ?_ fun e' out generated h => ?_
  · cases input with
    | message m =>
      cases m with
      | hint lane ranges rows =>
        have hrows : rows = [] := by
          rw [mayOpen, Bool.or_eq_false_iff] at hinput
          simpa using hinput.1
        subst hrows
        show Rests e (e.opened.applyMessage sha256 _).2
        unfold applyMessage
        split_ifs
        · exact hopened
        · exact hopened.receiveHintRanges hinput
      | root | offer | need | rows | done => cases hinput
    | localChange | localChangeEager =>
      simp only [accept, driveLocalChange_eq]
      exact hopened.trans ⟨hopened.closed, rfl, rfl, rfl⟩
    | rootExchange =>
      have hannounced : Rests e e.opened.announceRoot :=
        hopened.trans ⟨hopened.closed, rfl, rfl, rfl⟩
      exact hannounced.weighPeerRoot hinput
    | drain => exact hopened
  · have hdrained : Rests e (e'.drainBacklog out).2 := h.trans ⟨h.closed, rfl, rfl, rfl⟩
    show Rests e (((e'.drainBacklog out).2.settle generated).drainBacklog _).2
    rw [settle, if_neg (by simp [hdrained.closed])]
    exact hdrained.trans ⟨hdrained.closed, rfl, rfl, rfl⟩

end Engine

/-! ## Drives -/

/-- Whether an input can start a negotiation: a hint or a root exchange. -/
def Drive.asks : Drive → Bool
  | .message (.hint _ _ _) | .rootExchange => true
  | _ => false

/-- What happens to an engine that is driven neither a hint nor a root exchange. -/
inductive EngineStep (sha256 : Hash) (lane : LaneId) : Engine → Engine → Prop where
  | refill {e e' : Engine} (h : Engine.Refills e e') : EngineStep sha256 lane e e'
  | retire {e : Engine} : EngineStep sha256 lane e (.new lane)
  | other {e : Engine} {input : Drive} (h : input.asks = false) :
      EngineStep sha256 lane e (e.drive sha256 input).2

abbrev Unasked (sha256 : Hash) (lane : LaneId) : Engine → Engine → Prop :=
  Relation.ReflTransGen (EngineStep sha256 lane)

namespace PlaneState

/-- The state of a peer, fresh if the plane does not know it. -/
def peerOf (plane : PlaneState) (peer : NodeId) : PeerState := (plane.peers.get? peer).getD .fresh

def put (plane : PlaneState) (peer : NodeId) (state : PeerState) : PlaneState :=
  { plane with peers := plane.peers.insert peer state }

/-- No engine is driven a hint or a root exchange. -/
def Still (sha256 : Hash) (plane next : PlaneState) : Prop :=
  ∀ peer lane, Unasked sha256 lane ((plane.peerOf peer).engine lane)
    ((next.peerOf peer).engine lane)

lemma peerOf_put_self (plane : PlaneState) (peer : NodeId) (state : PeerState) :
    (plane.put peer state).peerOf peer = state := by
  rw [peerOf, put, OrdMap.get?_insert_self, Option.getD_some]

lemma peerOf_put_of_ne {other : NodeId} (plane : PlaneState) (state : PeerState)
    (h : other ≠ peer) : (plane.put peer state).peerOf other = plane.peerOf other := by
  rw [peerOf, put, OrdMap.get?_insert_of_ne h, peerOf]

lemma put_put (plane : PlaneState) (peer : NodeId) (state next : PeerState) :
    (plane.put peer state).put peer next = plane.put peer next := by
  have hpeers : (plane.peers.insert peer state).insert peer next =
      plane.peers.insert peer next := by
    refine OrdMap.ext_get? fun other => ?_
    by_cases hother : other = peer
    · rw [hother, OrdMap.get?_insert_self, OrdMap.get?_insert_self]
    · rw [OrdMap.get?_insert_of_ne hother, OrdMap.get?_insert_of_ne hother,
        OrdMap.get?_insert_of_ne hother]
  simp only [put, hpeers]

lemma peerOf_of_get? {state : PeerState} (h : plane.peers.get? peer = some state) :
    plane.peerOf peer = state := by
  rw [peerOf, h, Option.getD_some]

lemma openWith_eq (plane : PlaneState) (peer : NodeId) (lane : LaneId) :
    plane.openWith peer lane = ((plane.peerOf peer).engine lane).roundOpen := by
  unfold openWith peerOf PeerState.engine
  cases plane.peers.get? peer with
  | none => rfl
  | some state =>
    show (state.engines lane).any _ = _
    cases hengine : state.engines lane <;> simp [hengine, Engine.new]

section Still

variable {sha256 : Hash} {next last : PlaneState}

lemma Still.refl (plane : PlaneState) : Still sha256 plane plane := fun _ _ => .refl

lemma Still.trans (h : Still sha256 plane next) (h' : Still sha256 next last) :
    Still sha256 plane last :=
  fun peer lane => (h peer lane).trans (h' peer lane)

lemma Still.of_peers (h : next.peers = plane.peers) : Still sha256 plane next := by
  intro peer lane
  rw [peerOf, peerOf, h]

lemma Still.put {state : PeerState}
    (h : ∀ lane, Unasked sha256 lane ((plane.peerOf peer).engine lane) (state.engine lane)) :
    Still sha256 plane (plane.put peer state) := by
  intro other lane
  by_cases hother : other = peer
  · rw [hother, peerOf_put_self]
    exact h lane
  · rw [peerOf_put_of_ne _ _ hother]

lemma Still.put_refilled {state : PeerState} (h : (plane.peerOf peer).Refilled state) :
    Still sha256 plane (plane.put peer state) :=
  .put fun lane => .single (.refill (h.engine lane))

lemma Still.put_congr {state : PeerState} (h : state.engines = (plane.peerOf peer).engines) :
    Still sha256 plane (plane.put peer state) :=
  .put fun lane => by rw [PeerState.engine, PeerState.engine, h]

lemma Still.replace {state next : PeerState}
    (h : ∀ lane, Unasked sha256 lane (state.engine lane) (next.engine lane)) :
    (plane.put peer state).Still sha256 (plane.put peer next) := by
  intro other lane
  by_cases hother : other = peer
  · rw [hother, peerOf_put_self, peerOf_put_self]
    exact h lane
  · rw [peerOf_put_of_ne _ _ hother, peerOf_put_of_ne _ _ hother]

lemma unasked_drive {input : Drive} (hinput : input.asks = false) (state : PeerState)
    (lane other : LaneId) : Unasked sha256 other (state.engine other)
      ((state.drive sha256 lane input).2.engine other) := by
  show Unasked sha256 other _ ((state.modify lane fun e => (e.drive sha256 input).2).engine other)
  by_cases hother : other = lane
  · subst hother
    rw [PeerState.engine_modify_self]
    exact .single (.other hinput)
  · rw [PeerState.engine_modify_of_ne hother]

lemma unasked_driveAll {input : Drive} (hinput : input.asks = false) (lanes : List LaneId)
    (state : PeerState) (lane : LaneId) : Unasked sha256 lane (state.engine lane)
      ((state.driveAll sha256 input lanes).2.engine lane) := by
  rw [PeerState.driveAll_snd]
  exact List.foldlRecOn (motive := fun p : PeerState =>
    Unasked sha256 lane (state.engine lane) (p.engine lane)) lanes _ .refl
    fun p hp other _ => hp.trans (unasked_drive hinput p other lane)

lemma Still.mapValues {f : NodeId → PeerState → PeerState} {peers : OrdMap NodeId PeerState}
    (hpeers : peers = plane.peers.mapValues f)
    (h : ∀ peer state, ∀ lane,
      Unasked sha256 lane (state.engine lane) ((f peer state).engine lane)) :
    Still sha256 plane { plane with peers := peers } := by
  intro peer lane
  have hget : peers.get? peer = (plane.peers.get? peer).map (f peer) := by
    cases hstate : plane.peers.get? peer with
    | none =>
      cases hmapped : peers.get? peer with
      | none => rfl
      | some state =>
        rw [hpeers] at hmapped
        obtain ⟨old, hold, -⟩ := OrdMap.mem_mapValues.mp (OrdMap.get?_eq_some.mp hmapped)
        cases hstate.symm.trans (OrdMap.get?_eq_some.mpr hold)
    | some state =>
      rw [hpeers]
      exact OrdMap.get?_eq_some.mpr (OrdMap.mem_mapValues.mpr
        ⟨state, OrdMap.get?_eq_some.mp hstate, rfl⟩)
  unfold peerOf
  dsimp only
  rw [hget]
  cases plane.peers.get? peer with
  | none => exact .refl
  | some state => exact h peer state lane

end Still

end PlaneState

/-- A drive of a hint or a root exchange: the plane at that moment, the lane, the peer and the
input. -/
structure Initiation where
  plane : PlaneState
  lane : LaneId
  peer : NodeId
  input : Drive

namespace Initiation

def engine (i : Initiation) : Engine := (i.plane.peerOf i.peer).engine i.lane

def driven (sha256 : Hash) (i : Initiation) : PlaneState :=
  i.plane.put i.peer ((i.plane.peerOf i.peer).drive sha256 i.lane i.input).2

/-- The drive starts a negotiation. -/
def Opens (sha256 : Hash) (i : Initiation) : Prop :=
  i.engine.history.initiations < (i.engine.drive sha256 i.input).2.history.initiations

instance (sha256 : Hash) (i : Initiation) : Decidable (i.Opens sha256) :=
  inferInstanceAs (Decidable (_ < _))

def Roomy (i : Initiation) : Prop := i.plane.holdRoom i.lane = true

/-- No other peer's round of the lane is open. -/
def Alone (i : Initiation) : Prop := i.plane.laneInRound i.lane (some i.peer) = false

instance (i : Initiation) : Decidable i.Roomy := inferInstanceAs (Decidable (_ = _))

instance (i : Initiation) : Decidable i.Alone := inferInstanceAs (Decidable (_ = _))

end Initiation

/-- **The plane goes from one state to another by these drives**, in this order, and drives no
other hint or root exchange. -/
inductive Traced (sha256 : Hash) : PlaneState → List Initiation → PlaneState → Prop where
  | done {plane next : PlaneState} (h : plane.Still sha256 next) : Traced sha256 plane [] next
  | drive {plane next : PlaneState} {i : Initiation} {rest : List Initiation}
      (h : plane.Still sha256 i.plane) (hrest : Traced sha256 (i.driven sha256) rest next) :
      Traced sha256 plane (i :: rest) next

namespace Traced

variable {sha256 : Hash} {p q r : PlaneState} {is js : List Initiation}

lemma after (h : Traced sha256 q is r) (h' : p.Still sha256 q) : Traced sha256 p is r := by
  cases h with
  | done h => exact .done (h'.trans h)
  | drive h hrest => exact .drive (h'.trans h) hrest

lemma append (h : Traced sha256 p is q) (h' : Traced sha256 q js r) :
    Traced sha256 p (is ++ js) r := by
  induction h with
  | done h => exact h'.after h
  | drive h _ ih => exact .drive h (ih h')

lemma before (h : Traced sha256 p is q) (h' : q.Still sha256 r) : Traced sha256 p is r := by
  have happend := h.append (.done h')
  rwa [List.append_nil] at happend

lemma single (i : Initiation) : Traced sha256 i.plane [i] (i.driven sha256) :=
  .drive (.refl _) (.done (.refl _))

/-- The drives of a loop are those of its rounds. -/
lemma foldl {α : Type} {step : PlaneState → α → PlaneState}
    {drives : PlaneState → α → List Initiation}
    (h : ∀ p a, Traced sha256 p (drives p a) (step p a)) (p : PlaneState) (as : List α) :
    Traced sha256 p ((visits step p as).flatMap fun visit => drives visit.1 visit.2)
      (as.foldl step p) := by
  induction as generalizing p with
  | nil => exact .done (.refl p)
  | cons a as ih =>
    rw [visits, List.flatMap_cons]
    exact (h p a).append (ih _)

end Traced

namespace PlaneState

variable (sha256 : Hash)

/-- The root exchanges a peer drives in the lanes it need not hold. -/
def rootDrives (plane : PlaneState) (peer : NodeId) (state : PeerState) : List Initiation :=
  (visits (fun p lane => (p.drive sha256 lane .rootExchange).2) state
    (LaneId.all.filter fun lane => !(plane.heldLanes peer).contains lane)).map
      fun visit => ⟨plane.put peer visit.1, visit.2, peer, .rootExchange⟩

/-- A fresh peer exchanges roots in the lanes it need not hold. -/
def primeDrives (scan : LaneScan) (plane : PlaneState) (peer : NodeId) : List Initiation :=
  let fed := feed sha256 scan (plane.peerOf peer)
  if !fed.primed then
    plane.rootDrives sha256 peer { fed with primed := true, ticksSinceExchange := 0 }
  else []

def cadenceDrives (plane : PlaneState) (peer : NodeId) : List Initiation :=
  match plane.peers.get? peer with
  | none => []
  | some state => plane.rootDrives sha256 peer { state with ticksSinceExchange := 0 }

def hintDrives (plane : PlaneState) (lane : LaneId) (source : NodeId) (message : Message) :
    List Initiation :=
  match heldRanges plane lane source message, message with
  | none, .hint _ _ _ => [⟨plane, lane, source, .message message⟩]
  | _, _ => []

/-- The held hints of a lane and then its held root exchanges, as the release drives them. -/
def heldEntries (plane : PlaneState) (lane : LaneId) : List (NodeId × Drive) :=
  (plane.heldHints lane).map (fun held => (held.1, .message (.hint lane held.2 []))) ++
    (plane.heldRoots lane).map (·, .rootExchange)

def emptied (plane : PlaneState) (lane : LaneId) : PlaneState :=
  { plane with
    heldHints := Function.update plane.heldHints lane []
    heldRoots := Function.update plane.heldRoots lane [] }

def driveEntry (lane : LaneId) (plane : PlaneState) (entry : NodeId × Drive) : PlaneState :=
  (plane.driveKnown sha256 entry.1 lane entry.2).2

variable (plane : PlaneState)

/-- The drives of the release of a lane. -/
def releaseDrives (lane : LaneId) : List Initiation :=
  if plane.laneInRound lane none then []
  else
    (visits (driveEntry sha256 lane) (plane.emptied lane) (plane.heldEntries lane)).flatMap
      fun visit =>
        if (visit.1.peers.get? visit.2.1).isSome then [⟨visit.1, lane, visit.2.1, visit.2.2⟩]
        else []

lemma releaseLane_snd (lane : LaneId) : (plane.releaseLane sha256 lane).2 =
      if plane.laneInRound lane none then plane
      else (plane.heldEntries lane).foldl (driveEntry sha256 lane) (plane.emptied lane) := by
  unfold releaseLane
  split_ifs with h
  · rfl
  · simp only [runAll_snd, heldEntries, List.foldl_append, List.foldl_map]
    rfl

def waitingLanes : List LaneId :=
  LaneId.all.filter (fun lane => !(plane.heldHints lane).isEmpty) ++
    LaneId.all.filter fun lane => !(plane.heldRoots lane).isEmpty

def releases : List (PlaneState × LaneId) :=
  visits (fun p lane => (p.releaseLane sha256 lane).2) plane plane.waitingLanes

end PlaneState

/-! ## Sections -/

section Sections

variable {σ : Type} (sha256 : Hash) (host : Host σ)

/-- A section of a tick or a delivery that runs under the plane's lock. -/
inductive PlaneSection where
  | plan (notes : WriteNotes) (alive : List NodeId)
  | clear
  | pass (basis : SweptBasis) (epoch : ℕ) (scan : LaneScan) (plan : Finset LaneId)
      (checkpoint : Option Millis) (alive : List NodeId)
  | rescan (lane : LaneId)
  | negotiate (lane : LaneId) (source : NodeId) (message : Message) (rows : List Row)
  | fanOut (lane : LaneId) (source : NodeId) (rows : List Row)
  | dispatched (peer : NodeId) (message : Message) (delivered weak : Bool)

def passDriven (basis : SweptBasis) (epoch : ℕ) (scan : LaneScan) (plan : Finset LaneId)
    (checkpoint : Option Millis) (plane : PlaneState) (alive : List NodeId) : PlaneState :=
  let ((_, holds), plane) :=
    drivePeers sha256 host basis scan plan checkpoint (claimEpoch plan epoch plane) alive
  let plane := holds.foldl (fun p hold => p.holdRootExchange hold.1 hold.2) plane
  (if plan = ∅ then ([], plane) else repairIndex host basis scan plan checkpoint plane).2

def cadenceStart (plane : PlaneState) : PlaneState × List NodeId :=
  let due := (plane.peers.entries.filter fun e =>
    e.2.primed && decide (max (detectionCadenceTicks / e.2.cadenceDivisor) 1 ≤
      e.2.ticksSinceExchange)).map Prod.fst
  let aged := plane.peers.mapValues fun _ state =>
    { state with ticksSinceExchange := state.ticksSinceExchange + 1 }
  let (window, rotation) := rotationWindow due plane.rotation rootExchangeWindow
  ({ plane with peers := aged, rotation := rotation }, window)

lemma cadenceWindow_eq (plane : PlaneState) : cadenceWindow sha256 plane =
    PlaneState.runAll (cadencePeer sha256) (cadenceStart plane).1 (cadenceStart plane).2 := rfl

namespace PlaneSection

variable (plane : PlaneState)

/-- What the section does to the plane. -/
def run : PlaneSection → PlaneState
  | plan notes alive => (scanPlan plane notes alive).2
  | clear => { plane with peers := .empty, rotation := none }
  | pass basis epoch scan lanes checkpoint alive =>
    (tickPass sha256 host basis epoch scan lanes checkpoint plane alive).2
  | rescan lane => { plane with forceRescan := insert lane plane.forceRescan }
  | negotiate lane source message rows =>
    (Reconcile.negotiate sha256 lane source message rows plane).2
  | fanOut lane source rows => (Reconcile.fanOut sha256 lane source rows plane).2
  | dispatched peer message delivered weak =>
    Reconcile.dispatched peer message delivered weak plane

/-- The drives of the prime, the cadence and an inbound hint. -/
def asking : PlaneSection → List Initiation
  | pass basis epoch scan lanes checkpoint alive =>
    let driven := passDriven sha256 host basis epoch scan lanes checkpoint plane alive
    (visits (fun p peer => (drivePeer sha256 host basis scan lanes checkpoint p peer).2)
        (claimEpoch lanes epoch plane) alive).flatMap
      (fun visit => visit.1.primeDrives sha256 scan visit.2) ++
    (visits (fun p peer => (cadencePeer sha256 p peer).2) (cadenceStart driven).1
        (cadenceStart driven).2).flatMap
      fun visit => visit.1.cadenceDrives sha256 visit.2
  | negotiate lane source message _ =>
    if staleRoot plane lane source message then [] else plane.hintDrives lane source message
  | _ => []

def releases : PlaneSection → List (PlaneState × LaneId)
  | pass basis epoch scan lanes checkpoint alive =>
    (cadenceWindow sha256
      (passDriven sha256 host basis epoch scan lanes checkpoint plane alive)).2.releases sha256
  | negotiate lane source message rows =>
    if staleRoot plane lane source message then []
    else (admitMessage sha256 lane source message rows plane).2.releases sha256
  | _ => []

def initiations (s : PlaneSection) : List Initiation :=
  s.asking sha256 host plane ++
    (s.releases sha256 host plane).flatMap fun r => r.1.releaseDrives sha256 r.2

end PlaneSection

variable (plane : PlaneState) (sections : List PlaneSection)

def runSections : PlaneState :=
  sections.foldl (PlaneSection.run sha256 host) plane

def runInitiations : List Initiation :=
  (visits (PlaneSection.run sha256 host) plane sections).flatMap
    fun visit => visit.2.initiations sha256 host visit.1

def runReleases : List (PlaneState × LaneId) :=
  (visits (PlaneSection.run sha256 host) plane sections).flatMap
    fun visit => visit.2.releases sha256 host visit.1

end Sections

/-! ## Sections drive what is listed -/

section Drives

variable {σ : Type} {sha256 : Hash} (host : Host σ)

open PlaneState

lemma rootDrives_traced (plane : PlaneState) (peer : NodeId) (state : PeerState) :
    Traced sha256 (plane.put peer state) (plane.rootDrives sha256 peer state)
      (plane.put peer (state.driveAll sha256 .rootExchange
        (LaneId.all.filter fun lane => !(plane.heldLanes peer).contains lane)).2) := by
  rw [PeerState.driveAll_snd, rootDrives]
  generalize (LaneId.all.filter fun lane => !(plane.heldLanes peer).contains lane) = lanes
  induction lanes generalizing state with
  | nil => exact .done (.refl _)
  | cons lane lanes ih =>
    rw [visits, List.map_cons, List.foldl_cons]
    refine .drive (.refl _) ?_
    rw [Initiation.driven, peerOf_put_self, put_put]
    exact ih _

lemma drivePeer_snd (basis : SweptBasis) (scan : LaneScan) (plan : Finset LaneId)
    (checkpoint : Option Millis) (plane : PlaneState) (peer : NodeId) :
    (drivePeer sha256 host basis scan plan checkpoint plane peer).2 =
      plane.put peer ((LaneId.all.filter (· ∈ plan)).foldl
        (pruneLane sha256 host basis scan checkpoint)
        (announce sha256 plan (plane.heldLanes peer) (feed sha256 scan (plane.peerOf peer))).2) :=
  rfl

lemma drivePeer_traced (basis : SweptBasis) (scan : LaneScan) (plan : Finset LaneId)
    (checkpoint : Option Millis) (plane : PlaneState) (peer : NodeId) :
    Traced sha256 plane (plane.primeDrives sha256 scan peer)
      (drivePeer sha256 host basis scan plan checkpoint plane peer).2 := by
  have hfed := PeerState.feed_refilled sha256 scan (plane.peerOf peer)
  have hpruned (state : PeerState) : (plane.put peer state).Still sha256
      (plane.put peer ((LaneId.all.filter (· ∈ plan)).foldl
        (pruneLane sha256 host basis scan checkpoint) state)) :=
    .replace fun lane => .single (.refill
      ((PeerState.pruneLanes_refilled sha256 host basis scan checkpoint _ state).engine lane))
  rw [drivePeer_snd, primeDrives]
  generalize feed sha256 scan (plane.peerOf peer) = fed at hfed ⊢
  refine Traced.before ?_ (hpruned _)
  unfold announce
  by_cases hprimed : (!fed.primed) = true
  · rw [if_pos hprimed, if_pos hprimed]
    refine (rootDrives_traced plane peer { fed with primed := true, ticksSinceExchange := 0 }).after
      ?_
    exact .put fun lane => .single (.refill (hfed.engine lane))
  · rw [if_neg hprimed, if_neg hprimed]
    refine .done (.put fun lane => .trans (.single (.refill (hfed.engine lane))) ?_)
    exact unasked_driveAll (by split_ifs <;> rfl) _ fed lane

lemma holds_still (holds : List (LaneId × NodeId)) (plane : PlaneState) :
    plane.Still sha256 (holds.foldl (fun p hold => p.holdRootExchange hold.1 hold.2) plane) :=
  List.foldlRecOn (motive := plane.Still sha256) holds _ (.refl plane)
    fun _ hp _ _ => hp.trans (.of_peers rfl)

lemma drivePeers_snd (basis : SweptBasis) (scan : LaneScan) (plan : Finset LaneId)
    (checkpoint : Option Millis) (plane : PlaneState) (alive : List NodeId) :
    (drivePeers sha256 host basis scan plan checkpoint plane alive).2 = alive.foldl
      (fun p peer => (drivePeer sha256 host basis scan plan checkpoint p peer).2) plane :=
  foldl_snd (fun a b => (a.1 ++ b.1, a.2 ++ b.2))
    (drivePeer sha256 host basis scan plan checkpoint) alive ([], []) plane

lemma passDriven_traced (basis : SweptBasis) (epoch : ℕ) (scan : LaneScan) (plan : Finset LaneId)
    (checkpoint : Option Millis) (plane : PlaneState) (alive : List NodeId) :
    Traced sha256 plane
      ((visits (fun p peer => (drivePeer sha256 host basis scan plan checkpoint p peer).2)
        (claimEpoch plan epoch plane) alive).flatMap
          fun visit => visit.1.primeDrives sha256 scan visit.2)
      (passDriven sha256 host basis epoch scan plan checkpoint plane alive) := by
  have hdriven : Traced sha256 (claimEpoch plan epoch plane) _ _ :=
    Traced.foldl (fun p peer => drivePeer_traced host basis scan plan checkpoint p peer) _ alive
  refine (hdriven.before ?_).after (.of_peers rfl)
  unfold passDriven
  rw [← drivePeers_snd]
  generalize drivePeers sha256 host basis scan plan checkpoint (claimEpoch plan epoch plane) alive =
    driven
  dsimp only
  split_ifs
  · exact holds_still _ _
  · exact (holds_still _ _).trans (.of_peers rfl)

lemma cadencePeer_traced (plane : PlaneState) (peer : NodeId) :
    Traced sha256 plane (plane.cadenceDrives sha256 peer) (cadencePeer sha256 plane peer).2 := by
  have hholds (p : PlaneState) : p.Still sha256
      ((plane.heldLanes peer).foldl (fun p lane => p.holdRootExchange lane peer) p) :=
    List.foldlRecOn (motive := p.Still sha256) _ _ (.refl p)
      fun _ hp _ _ => hp.trans (.of_peers rfl)
  unfold cadencePeer cadenceDrives
  dsimp only
  cases hstate : plane.peers.get? peer with
  | none => exact .done (hholds plane)
  | some state =>
    refine ((rootDrives_traced plane peer { state with ticksSinceExchange := 0 }).before
      (hholds _)).after (.put_congr ?_)
    rw [peerOf_of_get? hstate]

lemma cadenceWindow_traced (plane : PlaneState) : Traced sha256 plane
    ((visits (fun p peer => (cadencePeer sha256 p peer).2) (cadenceStart plane).1
      (cadenceStart plane).2).flatMap fun visit => visit.1.cadenceDrives sha256 visit.2)
    (cadenceWindow sha256 plane).2 := by
  rw [cadenceWindow_eq, runAll_snd]
  refine (Traced.foldl cadencePeer_traced _ _).after ?_
  exact .mapValues rfl fun _ _ _ => .refl

lemma driveEntry_traced (lane : LaneId) (plane : PlaneState) (entry : NodeId × Drive) :
    Traced sha256 plane
      (if (plane.peers.get? entry.1).isSome then [⟨plane, lane, entry.1, entry.2⟩] else [])
      (driveEntry sha256 lane plane entry) := by
  unfold driveEntry driveKnown
  cases hstate : plane.peers.get? entry.1 with
  | none => exact .done (.refl plane)
  | some state =>
    have hsingle : Traced sha256 plane _ _ := .single ⟨plane, lane, entry.1, entry.2⟩
    rwa [Initiation.driven, peerOf_of_get? hstate] at hsingle

lemma releaseLane_traced (plane : PlaneState) (lane : LaneId) :
    Traced sha256 plane (plane.releaseDrives sha256 lane) (plane.releaseLane sha256 lane).2 := by
  rw [releaseLane_snd, releaseDrives]
  split_ifs
  · exact .done (.refl plane)
  · have hdriven : Traced sha256 (plane.emptied lane) _ _ :=
      Traced.foldl (driveEntry_traced lane) _ (plane.heldEntries lane)
    exact hdriven.after (.of_peers rfl)

lemma releaseHeldHints_traced (plane : PlaneState) : Traced sha256 plane
    ((plane.releases sha256).flatMap fun r => r.1.releaseDrives sha256 r.2)
    (plane.releaseHeldHints sha256).2 := by
  rw [releaseHeldHints, runAll_snd]
  exact Traced.foldl releaseLane_traced plane plane.waitingLanes

lemma tickTail_still (alive : List NodeId) (plane : PlaneState) : plane.Still sha256
    (retryHints (runAll (drainPeer sha256) plane alive).2).2 := by
  have hdrain (p : PlaneState) (peer : NodeId) : p.Still sha256 (drainPeer sha256 p peer).2 := by
    unfold drainPeer
    cases hstate : p.peers.get? peer with
    | none => exact .refl p
    | some state =>
      refine .put fun lane => ?_
      rw [peerOf_of_get? hstate]
      exact unasked_driveAll rfl _ state lane
  have hretry (p : PlaneState) : p.Still sha256 (retryHints p).2 := by
    refine .mapValues rfl fun peer state lane => ?_
    unfold retryHint
    repeat' split
    all_goals exact .refl
  rw [runAll_snd]
  exact Still.trans (List.foldlRecOn (motive := plane.Still sha256) alive _ (.refl plane)
    fun p hp peer _ => hp.trans (hdrain p peer)) (hretry _)

lemma admitMessage_traced (lane : LaneId) (source : NodeId) (message : Message) (rows : List Row)
    (plane : PlaneState) : Traced sha256 plane (plane.hintDrives lane source message)
      (admitMessage sha256 lane source message rows plane).2 := by
  unfold admitMessage hintDrives
  rw [← peerOf]
  cases hheld : heldRanges plane lane source message with
  | some ranges =>
    have hquiet : (plane.peerOf source).Refilled _ :=
      PeerState.insertRowsQuiet_refilled sha256 lane rows
    exact .done (.trans (.put_refilled hquiet) (.of_peers rfl))
  | none =>
    cases message with
    | hint l ranges carried =>
      exact Traced.single ⟨plane, lane, source, .message (.hint l ranges carried)⟩
    | root | offer | need | rows | done =>
      exact .done (.put fun other => unasked_drive rfl _ lane other)

lemma fanOut_still (lane : LaneId) (source : NodeId) (rows : List Row) (plane : PlaneState) :
    plane.Still sha256 (fanOut sha256 lane source rows plane).2 := by
  unfold fanOut
  split_ifs
  · exact .refl plane
  · refine .mapValues rfl fun peer state other => ?_
    unfold fanOutPeer
    split_ifs
    · exact .refl
    · have hrows : state.Refilled _ := PeerState.insertRows_refilled sha256 lane rows
      exact .trans (.single (.refill (hrows.engine other))) (unasked_drive rfl _ lane other)

/-- Where peers are retired, their engines start anew. -/
lemma still_of_retired {plane next : PlaneState}
    (h : ∀ peer, next.peers.get? peer = none ∨ next.peers.get? peer = plane.peers.get? peer) :
    plane.Still sha256 next := by
  intro peer lane
  rcases h peer with hnone | hsame
  · rw [peerOf, peerOf, hnone]
    exact .single .retire
  · rw [peerOf, peerOf, hsame]

/-- **A section drives the hints and root exchanges it lists**, and no others. -/
theorem PlaneSection.run_traced (plane : PlaneState) (s : PlaneSection) :
    Traced sha256 plane (s.initiations sha256 host plane) (s.run sha256 host plane) := by
  cases s with
  | plan notes alive =>
    refine .done (still_of_retired fun peer => ?_)
    have hpeers : (scanPlan plane notes alive).2.peers =
        plane.peers.filter fun peer _ => alive.contains peer := by
      unfold scanPlan
      dsimp only
      split_ifs <;> rfl
    rw [PlaneSection.run, hpeers]
    cases hkept : (plane.peers.filter fun peer _ => alive.contains peer).get? peer with
    | none => exact .inl rfl
    | some state =>
      have hmem := (OrdMap.mem_filter.mp (OrdMap.get?_eq_some.mp hkept)).1
      exact .inr (OrdMap.get?_eq_some.mpr hmem).symm
  | clear => exact .done (still_of_retired fun peer => .inl rfl)
  | pass basis epoch scan lanes checkpoint alive =>
    have hdriven : Traced sha256 plane _ _ :=
      passDriven_traced host basis epoch scan lanes checkpoint plane alive
    exact ((hdriven.append (cadenceWindow_traced _)).append (releaseHeldHints_traced _)).before
      (tickTail_still alive _)
  | rescan lane => exact .done (.of_peers rfl)
  | negotiate lane source message rows =>
    rw [PlaneSection.run, Reconcile.negotiate, PlaneSection.initiations, PlaneSection.asking,
      PlaneSection.releases]
    split_ifs
    · exact .done (.refl plane)
    · exact (admitMessage_traced lane source message rows plane).append (releaseHeldHints_traced _)
  | fanOut lane source rows => exact .done (fanOut_still lane source rows plane)
  | dispatched peer message delivered weak =>
    refine .done ?_
    rw [PlaneSection.run, Reconcile.dispatched]
    cases hstate : plane.peers.get? peer with
    | none => exact .refl plane
    | some state => exact .put_congr (by rw [peerOf_of_get? hstate])

theorem runSections_traced (plane : PlaneState) (sections : List PlaneSection) :
    Traced sha256 plane (runInitiations sha256 host plane sections)
      (runSections sha256 host plane sections) :=
  Traced.foldl (PlaneSection.run_traced host) plane sections

end Drives

/-! ## Ticks and deliveries are runs -/

section Runs

variable {σ : Type} (sha256 : Hash) (host : Host σ) (basis : SweptBasis)

lemma runSections_concat (plane : PlaneState) (sections : List PlaneSection) (s : PlaneSection) :
    runSections sha256 host plane (sections ++ [s]) =
      s.run sha256 host (runSections sha256 host plane sections) :=
  List.foldl_concat _ _ _ _

lemma applyRepair_is_run (plane : PlaneState) (store : σ) (repair : LaneScan) :
    ∃ sections, (applyRepair host plane store repair).1 =
      runSections sha256 host plane sections := by
  induction repair generalizing plane store with
  | nil => exact ⟨[], rfl⟩
  | cons entry repair ih =>
    obtain ⟨sections, hsections⟩ := ih (repairLane host (plane, store) entry).1
      (repairLane host (plane, store) entry).2
    have hentry : (repairLane host (plane, store) entry).1 = plane ∨
        (repairLane host (plane, store) entry).1 =
          PlaneSection.run sha256 host plane (.rescan entry.1) := by
      unfold repairLane
      dsimp only
      split
      · exact .inl rfl
      · exact .inr rfl
    rcases hentry with hentry | hentry
    · exact ⟨sections, hsections.trans (by rw [hentry])⟩
    · exact ⟨.rescan entry.1 :: sections, hsections.trans (by rw [hentry]; rfl)⟩

/-- **A tick is a run of sections.** -/
theorem tick_is_run (alive : List NodeId) (plane : PlaneState) (store : σ) :
    ∃ sections, (tick sha256 host basis alive plane store).2.1 =
      runSections sha256 host plane sections := by
  unfold tick
  split
  · exact ⟨[], rfl⟩
  · exact ⟨[], rfl⟩
  split_ifs
  · exact ⟨[.clear], rfl⟩
  dsimp only
  split
  · exact ⟨[.plan (host.notes store) alive], rfl⟩
  · rename_i checkpoint scan _
    generalize hplan : scanPlan plane (host.notes store) alive = planned
    obtain ⟨lanes, retired⟩ := planned
    dsimp only
    generalize hpass : tickPass sha256 host basis (host.notes store).registerEpoch scan lanes
      checkpoint retired alive = passed
    obtain ⟨⟨out, repair⟩, next⟩ := passed
    obtain ⟨sections, hsections⟩ := applyRepair_is_run sha256 host next store repair
    refine ⟨.plan (host.notes store) alive ::
      .pass basis (host.notes store).registerEpoch scan lanes checkpoint alive :: sections, ?_⟩
    rw [runSections, List.foldl_cons, List.foldl_cons, PlaneSection.run, PlaneSection.run, hplan,
      hpass]
    exact hsections

lemma applyReceived_is_run (lane : LaneId) (rows : List Row) (plane : PlaneState) (store : σ) :
    ∃ sections, (applyReceived host lane rows plane store).2.1 =
      runSections sha256 host plane sections := by
  unfold applyReceived
  split_ifs
  · exact ⟨[], rfl⟩
  · dsimp only
    split_ifs
    · exact ⟨[], rfl⟩
    · exact ⟨[.rescan lane], rfl⟩

/-- **A delivery is a run of sections.** -/
theorem deliver_is_run (source : NodeId) (message : Message) (plane : PlaneState) (store : σ) :
    ∃ sections, (deliver sha256 host basis source message plane store).2.1 =
      runSections sha256 host plane sections := by
  unfold deliver
  dsimp only
  split
  · exact ⟨[], rfl⟩
  · rename_i rows _
    obtain ⟨sections, hsections⟩ := applyReceived_is_run sha256 host message.lane rows plane store
    generalize applyReceived host message.lane rows plane store = received at hsections ⊢
    obtain ⟨kept, marked, next⟩ := received
    dsimp only at hsections ⊢
    generalize (if kept.length ≠ message.carried.length then retainRows message kept else message) =
      driven
    cases hnegotiate : negotiate sha256 message.lane source driven kept marked with
    | mk answer negotiated =>
      have hrun : negotiated = runSections sha256 host plane
          (sections ++ [.negotiate message.lane source driven kept]) := by
        rw [runSections_concat, ← hsections, PlaneSection.run, hnegotiate]
      cases answer with
      | none => exact ⟨_, hrun⟩
      | some out =>
        refine ⟨sections ++ [.negotiate message.lane source driven kept] ++
          [.fanOut message.lane source kept], ?_⟩
        rw [runSections_concat, ← hrun]
        rfl

end Runs

/-! ## What asks is alone -/

variable {i : Initiation}

section Gates

variable {σ : Type} {sha256 : Hash} {host : Host σ}

lemma laneInRound_put (plane : PlaneState) (peer : NodeId) (state : PeerState) (lane : LaneId) :
    (plane.put peer state).laneInRound lane (some peer) = plane.laneInRound lane (some peer) := by
  rw [Bool.eq_iff_iff, PlaneState.laneInRound_iff, PlaneState.laneInRound_iff]
  refine exists_congr fun other => and_congr_right fun hother => ?_
  have hne : other ≠ peer := fun heq => hother (congrArg some heq)
  rw [PlaneState.openWith_eq, PlaneState.openWith_eq, PlaneState.peerOf_put_of_ne _ _ hne]

lemma alone_of_mem_rootDrives {state : PeerState} (hroom : i.Roomy)
    (h : i ∈ plane.rootDrives sha256 peer state) : i.Alone := by
  obtain ⟨⟨reached, lane⟩, hvisit, rfl⟩ := List.mem_map.mp h
  obtain ⟨before, after, hsplit, -⟩ := mem_visits.mp hvisit
  have hlane : lane ∈ LaneId.all.filter fun lane => !(plane.heldLanes peer).contains lane := by
    rw [hsplit]
    simp
  obtain ⟨hall, hheld⟩ := List.mem_filter.mp hlane
  have hroom : plane.holdRoom lane = true := hroom
  rw [Initiation.Alone, laneInRound_put]
  by_contra hround
  simp [PlaneState.heldLanes, hall, Bool.eq_true_of_not_eq_false hround, hroom] at hheld

lemma alone_of_mem_hintDrives {source : NodeId} {message : Message} (hroom : i.Roomy)
    (h : i ∈ plane.hintDrives lane source message) : i.Alone := by
  unfold PlaneState.hintDrives at h
  split at h
  · rename_i hheld
    obtain rfl := List.mem_singleton.mp h
    have hroom : plane.holdRoom lane = true := hroom
    simpa [heldRanges, hroom, Initiation.Alone] using hheld
  · cases h

/-- **The prime, the cadence and an inbound hint start a negotiation alone.** -/
theorem alone_of_mem_asking {s : PlaneSection} (hroom : i.Roomy)
    (h : i ∈ s.asking sha256 host plane) : i.Alone := by
  cases s with
  | pass basis epoch scan lanes checkpoint alive =>
    rcases List.mem_append.mp h with h | h
    · obtain ⟨⟨p, peer⟩, -, h⟩ := List.mem_flatMap.mp h
      unfold PlaneState.primeDrives at h
      dsimp only at h
      split_ifs at h
      · exact alone_of_mem_rootDrives hroom h
      · cases h
    · obtain ⟨⟨p, peer⟩, -, h⟩ := List.mem_flatMap.mp h
      unfold PlaneState.cadenceDrives at h
      dsimp only at h
      split at h
      · cases h
      · exact alone_of_mem_rootDrives hroom h
  | negotiate lane source message rows =>
    rw [PlaneSection.asking] at h
    split_ifs at h
    · cases h
    · exact alone_of_mem_hintDrives hroom h
  | plan | clear | rescan | fanOut | dispatched => cases h

end Gates

/-! ## Releases -/

section Releases

variable (sha256 : Hash)

/-- Of the work a quiet lane holds, only one peer's may open a round. -/
def OneMayOpen (plane : PlaneState) (lane : LaneId) : Prop :=
  plane.laneInRound lane none = false →
    ∀ first ∈ plane.heldEntries lane, ∀ second ∈ plane.heldEntries lane,
      ((plane.peerOf first.1).engine lane).mayOpen first.2 = true →
      ((plane.peerOf second.1).engine lane).mayOpen second.2 = true → first.1 = second.1

instance (plane : PlaneState) (lane : LaneId) : Decidable (OneMayOpen plane lane) :=
  inferInstanceAs (Decidable (_ → _))

variable {sha256}

lemma mem_releaseDrives (h : i ∈ plane.releaseDrives sha256 lane) :
    plane.laneInRound lane none = false ∧ ∃ before entry after,
      plane.heldEntries lane = before ++ entry :: after ∧
      i = ⟨before.foldl (PlaneState.driveEntry sha256 lane) (plane.emptied lane), lane, entry.1,
        entry.2⟩ := by
  unfold PlaneState.releaseDrives at h
  split_ifs at h with hround
  · cases h
  · obtain ⟨⟨reached, entry⟩, hvisit, hi⟩ := List.mem_flatMap.mp h
    obtain ⟨before, after, hsplit, rfl⟩ := mem_visits.mp hvisit
    dsimp only at hi
    split_ifs at hi
    · exact ⟨Bool.eq_false_of_not_eq_true hround, before, entry, after, hsplit,
        List.mem_singleton.mp hi⟩
    · cases hi

/-- An engine whose entries open nothing rests through the release. -/
lemma rests_driveEntries (plane : PlaneState) {entries : List (NodeId × Drive)}
    (hclosed : ((plane.peerOf peer).engine lane).roundOpen = false)
    (h : ∀ entry ∈ entries, entry.1 = peer →
      ((plane.peerOf peer).engine lane).mayOpen entry.2 = false) :
    Engine.Rests ((plane.peerOf peer).engine lane)
      (((entries.foldl (PlaneState.driveEntry sha256 lane) plane).peerOf peer).engine lane) := by
  induction entries using List.reverseRecOn with
  | nil => exact .refl hclosed
  | append_singleton entries entry ih =>
    have hbefore := ih fun earlier hmem => h earlier (List.mem_append_left _ hmem)
    rw [List.foldl_append, List.foldl_cons, List.foldl_nil]
    generalize entries.foldl (PlaneState.driveEntry sha256 lane) plane = reached at hbefore ⊢
    unfold PlaneState.driveEntry PlaneState.driveKnown
    cases hstate : reached.peers.get? entry.1 with
    | none => exact hbefore
    | some state =>
      show Engine.Rests _ (((reached.put entry.1 (state.modify lane
        fun e => (e.drive sha256 entry.2).2)).peerOf peer).engine lane)
      by_cases hpeer : peer = entry.1
      · subst hpeer
        rw [PlaneState.peerOf_of_get? hstate] at hbefore
        rw [PlaneState.peerOf_put_self, PeerState.engine_modify_self]
        refine hbefore.trans (Engine.drive_rests sha256 hbefore.closed ?_)
        rw [hbefore.mayOpen]
        exact h entry (by simp) rfl
      · rwa [PlaneState.peerOf_put_of_ne _ _ hpeer]

/-- **A release starts its negotiations alone** if only one peer's held work may open a round. -/
theorem alone_of_mem_releaseDrives (h : OneMayOpen plane lane)
    (hi : i ∈ plane.releaseDrives sha256 lane) (hopens : i.Opens sha256) : i.Alone := by
  obtain ⟨hquiet, before, entry, after, hsplit, rfl⟩ := mem_releaseDrives hi
  have hclosed (peer : NodeId) : ((plane.peerOf peer).engine lane).roundOpen = false := by
    rw [← PlaneState.openWith_eq]
    refine Bool.eq_false_of_not_eq_true fun hopen => ?_
    have hround := PlaneState.laneInRound_iff.mpr ⟨peer, Option.some_ne_none peer, hopen⟩
    rw [hquiet] at hround
    cases hround
  -- a peer whose engine does not rest has work that may open a round
  have hmay (peer : NodeId) (hrests : ¬Engine.Rests ((plane.peerOf peer).engine lane)
      (((before.foldl (PlaneState.driveEntry sha256 lane) (plane.emptied lane)).peerOf
        peer).engine lane)) : ∃ first ∈ plane.heldEntries lane, first.1 = peer ∧
          ((plane.peerOf first.1).engine lane).mayOpen first.2 = true := by
    by_contra hnone
    refine hrests (rests_driveEntries (plane.emptied lane) (hclosed peer) ?_)
    rintro first hmem rfl
    exact Bool.eq_false_of_not_eq_true fun hopen => hnone
      ⟨first, hsplit ▸ List.mem_append_left _ hmem, rfl, hopen⟩
  refine Bool.eq_false_of_not_eq_true fun hround => ?_
  obtain ⟨peer, hpeer, hopen⟩ := PlaneState.laneInRound_iff.mp hround
  rw [PlaneState.openWith_eq] at hopen
  obtain ⟨first, hfirst, rfl, hfirstMay⟩ := hmay peer fun hrests =>
    Bool.noConfusion (hrests.closed.symm.trans hopen)
  by_cases hrests : Engine.Rests ((plane.peerOf entry.1).engine lane)
      (((before.foldl (PlaneState.driveEntry sha256 lane) (plane.emptied lane)).peerOf
        entry.1).engine lane)
  · -- the drive itself opens the round, so its entry may open one
    have hentry : ((plane.peerOf entry.1).engine lane).mayOpen entry.2 = true := by
      refine Bool.eq_true_of_not_eq_false fun hnone => ?_
      have hdriven := Engine.drive_rests sha256 hrests.closed (hrests.mayOpen.trans hnone)
      exact absurd hopens hdriven.initiations.not_gt
    exact hpeer (congrArg some (h hquiet first hfirst entry (by simp [hsplit]) hfirstMay hentry))
  · obtain ⟨second, hsecond, hsame, hsecondMay⟩ := hmay entry.1 hrests
    exact hpeer (congrArg some
      ((h hquiet first hfirst second hsecond hfirstMay hsecondMay).trans hsame))

end Releases

def exclusionPeer (n : Fin 3) : NodeId :=
  ⟨"node-00000000000000000000".toList ++ [Char.ofNat (97 + n)], by revert n; decide +kernel⟩

def exclusionHint : Message := .hint .descriptors [⟨0, 1, 1, 1⟩] []

def exclusionRun : List PlaneSection :=
  [.negotiate .descriptors (exclusionPeer 0) exclusionHint [],
    .negotiate .descriptors (exclusionPeer 1) exclusionHint [],
    .negotiate .descriptors (exclusionPeer 2) exclusionHint [],
    .negotiate .descriptors (exclusionPeer 0) (.done .descriptors 0) []]

def emptyHost : Host Unit where
  policy _ := ⟨fun _ => .ok [], fun _ _ _ _ => false, false, fun _ _ rows => .ok rows,
    fun store _ => (store, .ok [])⟩
  notes _ := .new
  latestCheckpoint _ := .ok none
  hasMembers _ := .ok true

def servedRun : List PlaneSection :=
  [.negotiate .descriptors (exclusionPeer 0) exclusionHint [],
    .negotiate .descriptors (exclusionPeer 1) exclusionHint [],
    .negotiate .descriptors (exclusionPeer 2) (.hint .descriptors [⟨0, 1, 0, 0⟩] []) [],
    .negotiate .descriptors (exclusionPeer 0) (.done .descriptors 0) []]

end Radiata.Reconcile
