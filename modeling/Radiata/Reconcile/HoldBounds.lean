import Radiata.Reconcile.LaneExclusion
import Radiata.Lib.Runs

/-!
# How much a plane holds

A lane holds hints and root exchanges while another session's round of the lane is open,
and both lists are asked for room before anything is held.  A hint is asked for and held in
one go, and so is the exchange of the cadence.  The prime asks for each fresh peer of a
tick while none of them is held yet: its holds land together when the loop over the peers
is done, so one tick can hold as many exchanges as it has fresh peers.  It holds none in a lane
that is calm or full before the tick.

The later phases of the tick keep the bound: the cadence only adds while there is room, and the
release only empties.
-/

namespace Radiata.Reconcile

open Lib Identity Storage

variable {plane : PlaneState}

namespace PlaneState

variable {next last : PlaneState} {lane : LaneId}

/-- No hold list of any lane exceeds its bound. -/
def Bounded (plane : PlaneState) : Prop :=
  ∀ lane, (plane.heldHints lane).length ≤ heldHintsPerLane ∧
    (plane.heldRoots lane).length ≤ heldHintsPerLane

/-! ## Steps that hold nothing -/

structure SameHolds (plane next : PlaneState) : Prop where
  hints : next.heldHints = plane.heldHints
  roots : next.heldRoots = plane.heldRoots

lemma SameHolds.refl (plane : PlaneState) : SameHolds plane plane := ⟨rfl, rfl⟩

lemma SameHolds.trans (h : SameHolds plane next) (h' : SameHolds next last) :
    SameHolds plane last :=
  ⟨h'.hints.trans h.hints, h'.roots.trans h.roots⟩

lemma SameHolds.foldl {α : Type} {f : PlaneState → α → PlaneState}
    (h : ∀ p a, SameHolds p (f p a)) (plane : PlaneState) (steps : List α) :
    SameHolds plane (steps.foldl f plane) := by
  induction steps generalizing plane with
  | nil => exact .refl plane
  | cons a steps ih => exact (h plane a).trans (ih _)

lemma SameHolds.bounded (h : SameHolds plane next) : next.Bounded ↔ plane.Bounded := by
  rw [Bounded, Bounded, h.hints, h.roots]

lemma driveKnown_sameHolds (sha256 : Hash) (plane : PlaneState) (peer : NodeId) (lane : LaneId)
    (input : Drive) : SameHolds plane (plane.driveKnown sha256 peer lane input).2 := by
  unfold driveKnown
  split <;> exact ⟨rfl, rfl⟩

lemma drivePeers_sameHolds {σ : Type} (sha256 : Hash) (host : Host σ) (basis : SweptBasis)
    (scan : LaneScan) (plan : Finset LaneId) (checkpoint : Option Millis) (plane : PlaneState)
    (alive : List NodeId) :
    SameHolds plane (drivePeers sha256 host basis scan plan checkpoint plane alive).2 := by
  rw [drivePeers_snd]
  refine SameHolds.foldl (fun p peer => ?_) plane alive
  exact ⟨rfl, rfl⟩

/-! ## Root exchanges -/

variable (holds : List (LaneId × NodeId))

lemma heldRoots_land (plane : PlaneState) (lane : LaneId) :
    (holds.foldl (fun p hold => p.holdRootExchange hold.1 hold.2) plane).heldRoots lane =
      plane.heldRoots lane ++ (holds.filter fun hold => hold.1 = lane).map Prod.snd := by
  induction holds generalizing plane with
  | nil => simp
  | cons hold holds ih =>
    rw [List.foldl_cons, ih, holdRootExchange]
    rcases eq_or_ne hold.1 lane with rfl | hne
    · simp
    · simp [hne, Function.update_of_ne hne.symm]

lemma heldHints_land (plane : PlaneState) :
    (holds.foldl (fun p hold => p.holdRootExchange hold.1 hold.2) plane).heldHints =
      plane.heldHints := by
  induction holds generalizing plane with
  | nil => rfl
  | cons hold holds ih => rw [List.foldl_cons, ih, holdRootExchange]

/-- Root exchanges are held only while there is room. -/
structure Grows (plane next : PlaneState) : Prop where
  hints : next.heldHints = plane.heldHints
  room : ∀ lane, (next.heldRoots lane).length ≤
    max (plane.heldRoots lane).length heldHintsPerLane

lemma SameHolds.grows (h : SameHolds plane next) : Grows plane next :=
  ⟨h.hints, fun _ => h.roots ▸ le_max_left _ _⟩

lemma Grows.trans (h : Grows plane next) (h' : Grows next last) : Grows plane last := by
  refine ⟨h'.hints.trans h.hints, fun lane => ?_⟩
  have := h.room lane
  have := h'.room lane
  omega

lemma Grows.foldl {α : Type} {f : PlaneState → α → PlaneState} (h : ∀ p a, Grows p (f p a))
    (plane : PlaneState) (steps : List α) : Grows plane (steps.foldl f plane) := by
  induction steps generalizing plane with
  | nil => exact (SameHolds.refl plane).grows
  | cons a steps ih => exact (h plane a).trans (ih _)

lemma Grows.bounded (h : Grows plane next) (hbounded : plane.Bounded) : next.Bounded := by
  intro lane
  have hroom := h.room lane
  obtain ⟨hhints, hroots⟩ := hbounded lane
  exact ⟨h.hints ▸ hhints, by omega⟩

/-- A peer is held once in a lane at most. -/
lemma count_heldLanes (plane : PlaneState) (peer : NodeId) (lane : LaneId) :
    (((plane.heldLanes peer).map (·, peer)).filter fun hold => hold.1 = lane).length =
      if lane ∈ plane.heldLanes peer then 1 else 0 := by
  have hnodup : (plane.heldLanes peer).Nodup := List.Nodup.filter _ (by decide)
  have hcount : (plane.heldLanes peer).countP ((fun hold => decide (hold.1 = lane)) ∘ (·, peer)) =
      (plane.heldLanes peer).count lane := by
    refine List.countP_congr fun other _ => ?_
    simp
  rw [← List.countP_eq_length_filter, List.countP_map, hcount]
  split_ifs with hheld
  · exact List.count_eq_one_of_mem hnodup hheld
  · exact List.count_eq_zero_of_not_mem hheld

lemma mem_heldLanes (h : lane ∈ plane.heldLanes peer) :
    plane.laneInRound lane (some peer) = true ∧ plane.holdRoom lane = true :=
  Bool.and_eq_true_iff.mp (List.mem_filter.mp h).2

lemma heldLanes_grows (h : SameHolds plane next) (peer : NodeId) :
    Grows plane ((plane.heldLanes peer).foldl (fun p lane => p.holdRootExchange lane peer)
      next) := by
  have hmap : (plane.heldLanes peer).foldl (fun p lane => p.holdRootExchange lane peer) next =
      ((plane.heldLanes peer).map (·, peer)).foldl
        (fun p hold => p.holdRootExchange hold.1 hold.2) next := by
    rw [List.foldl_map]
  rw [hmap]
  refine ⟨(heldHints_land _ _).trans h.hints, fun lane => ?_⟩
  rw [heldRoots_land, h.roots, List.length_append, List.length_map, count_heldLanes]
  split_ifs with hheld
  · have hlt := of_decide_eq_true (Bool.and_eq_true_iff.mp (mem_heldLanes hheld).2).2
    omega
  · omega

lemma cadenceWindow_grows (sha256 : Hash) (plane : PlaneState) :
    Grows plane (cadenceWindow sha256 plane).2 := by
  rw [cadenceWindow_eq, runAll_snd]
  have hstart : SameHolds plane (cadenceStart plane).1 := ⟨rfl, rfl⟩
  refine hstart.grows.trans (Grows.foldl (fun p peer => ?_) _ _)
  have hheld (peers : OrdMap NodeId PeerState) : Grows p ((p.heldLanes peer).foldl
      (fun p lane => p.holdRootExchange lane peer) { p with peers := peers }) := by
    have hsame : SameHolds p { p with peers := peers } := ⟨rfl, rfl⟩
    exact heldLanes_grows hsame peer
  unfold cadencePeer
  dsimp only
  split
  · exact hheld p.peers
  · exact hheld _

/-! ## Releases -/

section Release

variable (sha256 : Hash)

lemma bounded_release (h : plane.Bounded) : (plane.releaseHeldHints sha256).2.Bounded := by
  rw [releaseHeldHints, runAll_snd]
  refine List.foldlRecOn (motive := Bounded) _ _ h fun p hp lane _ other => ?_
  have hsame : SameHolds (p.emptied lane)
      ((p.heldEntries lane).foldl (driveEntry sha256 lane) (p.emptied lane)) :=
    SameHolds.foldl (fun p (entry : NodeId × Drive) =>
      driveKnown_sameHolds sha256 p entry.1 lane entry.2) _ _
  rw [releaseLane_snd]
  split_ifs
  · exact hp other
  · rw [hsame.hints, hsame.roots]
    rcases eq_or_ne other lane with rfl | hne
    · simp [emptied]
    · simpa only [emptied, Function.update_of_ne hne] using hp other

end Release

/-! ## The prime -/

/-- The live peers that the next prime announces. -/
def unprimed (plane : PlaneState) (alive : List NodeId) : ℕ :=
  alive.countP fun peer => !(plane.peerOf peer).primed

/-- No round of the lane is open, and the prime opens none: it knows no root of its peers. -/
def Calm (plane : PlaneState) (alive : List NodeId) (lane : LaneId) : Prop :=
  plane.laneInRound lane none = false ∧ ∀ peer ∈ alive, (plane.peerOf peer).primed = false →
    ((plane.peerOf peer).engine lane).peerRoot = none

instance (plane : PlaneState) (alive : List NodeId) (lane : LaneId) :
    Decidable (plane.Calm alive lane) :=
  inferInstanceAs (Decidable (_ ∧ _))

lemma laneInRound_eq_false {except : Option NodeId} :
    plane.laneInRound lane except = false ↔
      ∀ peer, some peer ≠ except → ((plane.peerOf peer).engine lane).roundOpen = false := by
  rw [← Bool.not_eq_true, laneInRound_iff]
  simp only [openWith_eq, not_exists, not_and, Bool.not_eq_true]

section Prime

variable {σ : Type} (sha256 : Hash) (host : Host σ) (basis : SweptBasis) (scan : LaneScan)
  (plan : Finset LaneId) (checkpoint : Option Millis)

lemma driveAll_rests {state : PeerState} {input : Drive} {lanes : List LaneId}
    (hclosed : (state.engine lane).roundOpen = false)
    (hinput : (state.engine lane).mayOpen input = false) :
    (state.engine lane).Rests ((state.driveAll sha256 input lanes).2.engine lane) := by
  rw [PeerState.driveAll_snd]
  refine List.foldlRecOn (motive := fun p : PeerState => (state.engine lane).Rests (p.engine lane))
    lanes _ (.refl hclosed) fun p hp other _ => ?_
  show (state.engine lane).Rests ((p.modify other fun e => (e.drive sha256 input).2).engine lane)
  by_cases hlane : lane = other
  · subst hlane
    rw [PeerState.engine_modify_self]
    exact hp.trans (Engine.drive_rests sha256 hp.closed (hp.mayOpen.trans hinput))
  · rwa [PeerState.engine_modify_of_ne hlane]

lemma announce_primed (held : List LaneId) (fed : PeerState) :
    (announce sha256 plan held fed).2.primed = true := by
  unfold announce
  split_ifs with hprimed <;> rw [PeerState.driveAll_primed]
  all_goals simpa using hprimed

lemma announce_closed {fed : PeerState} (held : List LaneId)
    (hclosed : (fed.engine lane).roundOpen = false)
    (hroot : fed.primed = false → (fed.engine lane).peerRoot = none) :
    ((announce sha256 plan held fed).2.engine lane).roundOpen = false := by
  unfold announce
  split_ifs with hprimed
  · have hfresh : (fed.engine lane).mayOpen .rootExchange = false := by
      rw [Engine.mayOpen, hroot (by simpa using hprimed), Option.any_none]
    exact Engine.Rests.closed (driveAll_rests sha256 (by exact hclosed) (by exact hfresh))
  all_goals exact (driveAll_rests sha256 hclosed rfl).closed

lemma drivePeer_peerOf (plane : PlaneState) (peer : NodeId) :
    ((announce sha256 plan (plane.heldLanes peer)
    (feed sha256 scan (plane.peerOf peer))).2).Refilled
      ((drivePeer sha256 host basis scan plan checkpoint plane peer).2.peerOf peer) := by
  rw [drivePeer_snd, peerOf_put_self]
  exact PeerState.pruneLanes_refilled sha256 host basis scan checkpoint _ _

lemma drivePeer_peerOf_of_ne {other : NodeId} (h : other ≠ peer) (plane : PlaneState) :
    (drivePeer sha256 host basis scan plan checkpoint plane peer).2.peerOf other =
      plane.peerOf other :=
  peerOf_put_of_ne plane _ h

lemma Calm.drivePeer {alive : List NodeId} (h : plane.Calm (peer :: alive) lane) :
    (Reconcile.drivePeer sha256 host basis scan plan checkpoint plane peer).2.Calm alive lane := by
  have hfed := PeerState.feed_refilled sha256 scan (plane.peerOf peer)
  have hopen := laneInRound_eq_false.mp h.1
  have hclosed := announce_closed sha256 plan (plane.heldLanes peer)
    ((hfed.engine lane).roundOpen.trans (hopen peer (Option.some_ne_none peer)))
    fun hfresh => (hfed.engine lane).peerRoot.trans
      (h.2 peer List.mem_cons_self (hfed.primed.symm.trans hfresh))
  have hdriven := drivePeer_peerOf sha256 host basis scan plan checkpoint plane peer
  refine ⟨laneInRound_eq_false.mpr fun other hother => ?_, fun other hother hfresh => ?_⟩
  · by_cases heq : other = peer
    · rw [heq]
      exact (hdriven.engine lane).roundOpen.trans hclosed
    · rw [drivePeer_peerOf_of_ne sha256 host basis scan plan checkpoint heq]
      exact hopen other hother
  · by_cases heq : other = peer
    · rw [heq, hdriven.primed, announce_primed] at hfresh
      cases hfresh
    · rw [drivePeer_peerOf_of_ne sha256 host basis scan plan checkpoint heq] at hfresh ⊢
      exact h.2 other (List.mem_cons_of_mem _ hother) hfresh

lemma unprimed_drivePeer_le (plane : PlaneState) (peer : NodeId) (alive : List NodeId) :
    (drivePeer sha256 host basis scan plan checkpoint plane peer).2.unprimed alive ≤
      plane.unprimed alive := by
  refine List.countP_mono_left fun other _ hfresh => ?_
  by_cases heq : other = peer
  · rw [heq, (drivePeer_peerOf sha256 host basis scan plan checkpoint plane peer).primed,
      announce_primed] at hfresh
    cases hfresh
  · rwa [drivePeer_peerOf_of_ne sha256 host basis scan plan checkpoint heq] at hfresh

lemma drivePeers_cons_holds (plane : PlaneState) (peer : NodeId) (alive : List NodeId) :
    (drivePeers sha256 host basis scan plan checkpoint plane (peer :: alive)).1.2 =
      (if !(plane.peerOf peer).primed then (plane.heldLanes peer).map (·, peer) else []) ++
      (drivePeers sha256 host basis scan plan checkpoint
        (drivePeer sha256 host basis scan plan checkpoint plane peer).2 alive).1.2 := by
  have hacc (peers : List NodeId) (out : Outbound) (holds : List (LaneId × NodeId))
      (p : PlaneState) : (peers.foldl (fun acc peer =>
        ((acc.1.1 ++ (drivePeer sha256 host basis scan plan checkpoint acc.2 peer).1.1,
          acc.1.2 ++ (drivePeer sha256 host basis scan plan checkpoint acc.2 peer).1.2),
          (drivePeer sha256 host basis scan plan checkpoint acc.2 peer).2)) ((out, holds), p)).1.2 =
      holds ++ (peers.foldl (fun acc peer =>
        ((acc.1.1 ++ (drivePeer sha256 host basis scan plan checkpoint acc.2 peer).1.1,
          acc.1.2 ++ (drivePeer sha256 host basis scan plan checkpoint acc.2 peer).1.2),
          (drivePeer sha256 host basis scan plan checkpoint acc.2 peer).2)) (([], []), p)).1.2 := by
    induction peers generalizing out holds p with
    | nil => simp
    | cons first peers ih =>
      rw [List.foldl_cons, List.foldl_cons, ih, ih ([] ++ _), List.nil_append, List.append_assoc]
  have hprimed := (PeerState.feed_refilled sha256 scan (plane.peerOf peer)).primed
  rw [← hprimed]
  exact hacc alive _ _ _

/-- **The prime holds an exchange of each unprimed live peer at most.** -/
theorem primeHolds_le (plane : PlaneState) (alive : List NodeId) (lane : LaneId) :
    ((drivePeers sha256 host basis scan plan checkpoint plane alive).1.2.filter
      fun hold => hold.1 = lane).length ≤ plane.unprimed alive := by
  induction alive generalizing plane with
  | nil => exact Nat.zero_le _
  | cons peer alive ih =>
    have hrest := ih (drivePeer sha256 host basis scan plan checkpoint plane peer).2
    have hless := unprimed_drivePeer_le sha256 host basis scan plan checkpoint plane peer alive
    have hfirst : ((if !(plane.peerOf peer).primed then (plane.heldLanes peer).map (·, peer)
        else []).filter fun hold => hold.1 = lane).length ≤
          if !(plane.peerOf peer).primed then 1 else 0 := by
      split_ifs
      · rw [count_heldLanes]
        split_ifs <;> decide
      · exact le_rfl
    rw [drivePeers_cons_holds, List.filter_append, List.length_append, unprimed, List.countP_cons,
      ← unprimed]
    omega

/-- **The prime holds nothing in a lane that is full or calm.** -/
theorem primeHolds_eq_zero {alive : List NodeId}
    (h : plane.holdRoom lane = false ∨ plane.Calm alive lane) :
    ((drivePeers sha256 host basis scan plan checkpoint plane alive).1.2.filter
      fun hold => hold.1 = lane).length = 0 := by
  induction alive generalizing plane with
  | nil => rfl
  | cons peer alive ih =>
    have hnot : lane ∉ plane.heldLanes peer := by
      intro hheld
      obtain ⟨hround, hroom⟩ := mem_heldLanes hheld
      rcases h with hfull | hcalm
      · rw [hroom] at hfull
        cases hfull
      · have hnone := laneInRound_eq_false.mpr fun other (_ : some other ≠ some peer) =>
          laneInRound_eq_false.mp hcalm.1 other (Option.some_ne_none other)
        rw [hnone] at hround
        cases hround
    have hfirst := count_heldLanes plane peer lane
    rw [if_neg hnot] at hfirst
    have hrest := ih (h.imp id (Calm.drivePeer sha256 host basis scan plan checkpoint))
    rw [drivePeers_cons_holds, List.filter_append, List.length_append, hrest]
    split_ifs
    · exact hfirst
    · rfl

end Prime

/-! ## Sections -/

section Pass

variable {σ : Type} (sha256 : Hash) (host : Host σ)

lemma passDriven_holds (basis : SweptBasis) (epoch : ℕ) (scan : LaneScan) (plan : Finset LaneId)
    (checkpoint : Option Millis) (plane : PlaneState) (alive : List NodeId) :
    (passDriven sha256 host basis epoch scan plan checkpoint plane alive).heldHints =
        plane.heldHints ∧
      ∀ lane, (passDriven sha256 host basis epoch scan plan checkpoint plane alive).heldRoots lane =
        plane.heldRoots lane ++
          (((drivePeers sha256 host basis scan plan checkpoint (claimEpoch plan epoch plane)
            alive).1.2.filter fun hold => hold.1 = lane).map Prod.snd) := by
  have hdriven := drivePeers_sameHolds sha256 host basis scan plan checkpoint
    (claimEpoch plan epoch plane) alive
  unfold passDriven
  generalize drivePeers sha256 host basis scan plan checkpoint (claimEpoch plan epoch plane)
    alive = driven at hdriven ⊢
  obtain ⟨⟨out, holds⟩, next⟩ := driven
  have hhints : next.heldHints = plane.heldHints := hdriven.hints
  have hroots : next.heldRoots = plane.heldRoots := hdriven.roots
  dsimp only
  split_ifs
  · exact ⟨(heldHints_land _ _).trans hhints, fun lane => by rw [heldRoots_land, hroots]⟩
  · exact ⟨(heldHints_land _ _).trans hhints, fun lane => by
      show (holds.foldl _ next).heldRoots lane = _
      rw [heldRoots_land, hroots]⟩

lemma tickPass_sameHolds (basis : SweptBasis) (epoch : ℕ) (scan : LaneScan)
    (plan : Finset LaneId) (checkpoint : Option Millis) (plane : PlaneState) (alive : List NodeId) :
    SameHolds ((cadenceWindow sha256
        (passDriven sha256 host basis epoch scan plan checkpoint plane alive)).2.releaseHeldHints
          sha256).2
      (tickPass sha256 host basis epoch scan plan checkpoint plane alive).2 := by
  have hdrain (p : PlaneState) : SameHolds p (runAll (drainPeer sha256) p alive).2 := by
    rw [runAll_snd]
    refine SameHolds.foldl (fun p peer => ?_) p alive
    unfold drainPeer
    split <;> exact ⟨rfl, rfl⟩
  have hretry (p : PlaneState) : SameHolds p (retryHints p).2 := ⟨rfl, rfl⟩
  exact (hdrain _).trans (hretry _)

end Pass

end PlaneState

namespace PlaneSection

variable {σ : Type} (sha256 : Hash) (host : Host σ)

section

variable (plane : PlaneState)

/-- Before a pass, each lane is full or calm, or has room for all unprimed live peers. -/
def Fits : PlaneSection → Prop
  | pass _ _ _ _ _ alive => ∀ lane ∈ LaneId.all,
      (plane.holdRoom lane = false ∨ plane.Calm alive lane) ∨
        (plane.heldRoots lane).length + plane.unprimed alive ≤ heldHintsPerLane
  | _ => True

instance decidableFits : (s : PlaneSection) → Decidable (s.Fits plane)
  | pass _ _ _ _ _ _ => inferInstanceAs (Decidable (∀ lane ∈ LaneId.all, _ ∨ _))
  | plan _ _ | clear | rescan _ | negotiate _ _ _ _ | fanOut _ _ _ | dispatched _ _ _ _ =>
    .isTrue trivial

end

open PlaneState

section

variable (h : plane.Bounded)
include h

/-- **A pass keeps the bound** if its fresh peers fit. -/
theorem bounded_pass (basis : SweptBasis) (epoch : ℕ) (scan : LaneScan) (lanes : Finset LaneId)
    (checkpoint : Option Millis) (alive : List NodeId)
    (hfits : (pass basis epoch scan lanes checkpoint alive).Fits plane) :
    ((pass basis epoch scan lanes checkpoint alive).run sha256 host plane).Bounded := by
  obtain ⟨hhints, hroots⟩ :=
    passDriven_holds sha256 host basis epoch scan lanes checkpoint plane alive
  have hend := tickPass_sameHolds sha256 host basis epoch scan lanes checkpoint plane alive
  have hdriven :
      (passDriven sha256 host basis epoch scan lanes checkpoint plane alive).Bounded := by
    intro lane
    refine ⟨hhints ▸ (h lane).1, ?_⟩
    rw [hroots, List.length_append, List.length_map]
    rcases hfits lane (by cases lane <;> decide) with hnone | hroom
    · rw [primeHolds_eq_zero sha256 host basis scan lanes checkpoint
        (show (claimEpoch lanes epoch plane).holdRoom lane = false ∨
          (claimEpoch lanes epoch plane).Calm alive lane from hnone)]
      exact (h lane).2
    · exact (Nat.add_le_add_left (primeHolds_le sha256 host basis scan lanes checkpoint
        (claimEpoch lanes epoch plane) alive lane) _).trans hroom
  exact hend.bounded.mpr (bounded_release sha256 ((cadenceWindow_grows sha256 _).bounded hdriven))

lemma bounded_take (lane : LaneId) (source : NodeId) (message : Message) (rows : List Row) :
    (admitMessage sha256 lane source message rows plane).2.Bounded := by
  unfold admitMessage
  dsimp only
  split
  · rename_i ranges hheld
    have hroom : plane.holdRoom lane = true := by
      cases message with
      | hint _ _ _ =>
        rw [heldRanges] at hheld
        split_ifs at hheld with hgate
        exact (Bool.and_eq_true_iff.mp hgate).2
      | root | offer | need | rows | done => cases hheld
    have hlt := of_decide_eq_true (Bool.and_eq_true_iff.mp hroom).1
    intro other
    refine ⟨?_, (h other).2⟩
    rcases eq_or_ne other lane with rfl | hne
    · simp only [holdHint, Function.update_self, List.length_append, List.length_singleton]
      omega
    · simp only [holdHint, Function.update_of_ne hne]
      exact (h other).1
  · exact h

/-- **A section keeps the bound** if the fresh peers of a pass fit. -/
theorem bounded_run (s : PlaneSection) (hfits : s.Fits plane) :
    (s.run sha256 host plane).Bounded := by
  have hsame (hholds : SameHolds plane (s.run sha256 host plane)) :
      (s.run sha256 host plane).Bounded := hholds.bounded.mpr h
  cases s with
  | pass basis epoch scan lanes checkpoint alive =>
    exact bounded_pass sha256 host h basis epoch scan lanes checkpoint alive hfits
  | plan notes alive =>
    refine hsame ?_
    rw [run, scanPlan]
    dsimp only
    split_ifs <;> exact ⟨rfl, rfl⟩
  | clear | rescan lane => exact hsame ⟨rfl, rfl⟩
  | negotiate lane source message rows =>
    rw [run, Reconcile.negotiate]
    split_ifs
    · exact h
    · exact bounded_release sha256 (bounded_take sha256 h lane source message rows)
  | fanOut lane source rows =>
    refine hsame ?_
    rw [run, Reconcile.fanOut]
    split_ifs <;> exact ⟨rfl, rfl⟩
  | dispatched peer message delivered weak =>
    refine hsame ?_
    rw [run, Reconcile.dispatched]
    split <;> exact ⟨rfl, rfl⟩

end

end PlaneSection

/-- **How much a plane holds.**  Along a run of the plane both lists of every lane stay within
the bound if before every pass each lane is full, or calm, or has room for all the live peers that
are not primed yet. -/
theorem holds_bounded {σ : Type} (sha256 : Hash) (host : Host σ) (sections : List PlaneSection)
    (h : EveryStep (PlaneSection.run sha256 host) (fun plane s => s.Fits plane) .new sections) :
    ∀ before after, sections = before ++ after → (runSections sha256 host .new before).Bounded :=
  invariant_of_run (fun _ => ⟨Nat.zero_le _, Nat.zero_le _⟩) fun before s after hsplit hbounded =>
    PlaneSection.bounded_run sha256 host hbounded s (h before s after hsplit)

def holdPeer (n : Fin 10) : NodeId :=
  ⟨"node-00000000000000000000".toList ++ [Char.ofNat (97 + n)], by revert n; decide +kernel⟩

def crowdedTick : List PlaneSection :=
  [.negotiate .descriptors (holdPeer 0) exclusionHint [],
    .plan .new ((List.finRange 10).map holdPeer),
    .pass ⟨0, 0⟩ 0 (LaneId.all.map (·, [])) LaneId.all.toFinset none
      ((List.finRange 10).map holdPeer)]

def roomyTick : List PlaneSection :=
  [.negotiate .descriptors (holdPeer 0) exclusionHint [],
    .plan .new ((List.finRange 8).map (holdPeer ∘ Fin.castLE (by decide))),
    .pass ⟨0, 0⟩ 0 (LaneId.all.map (·, [])) LaneId.all.toFinset none
      ((List.finRange 8).map (holdPeer ∘ Fin.castLE (by decide)))]

/-- With eight fresh peers the tick holds seven exchanges, and the bound stays. -/
theorem roomy_tick_bounded :
    ((runSections zeroHash emptyHost .new roomyTick).heldRoots .descriptors).length = 7 ∧
      (runSections zeroHash emptyHost .new roomyTick).Bounded :=
  ⟨by decide +kernel, holds_bounded zeroHash emptyHost roomyTick (by decide +kernel) roomyTick
    [] rfl⟩

/-- **One tick holds nine exchanges**: each fresh peer is asked for room before any of them is
held.  The sections are those of a delivery and a tick. -/
theorem tick_holds_nine :
    ((tick zeroHash emptyHost ⟨0, 0⟩ ((List.finRange 10).map holdPeer)
      (deliver zeroHash emptyHost ⟨0, 0⟩ (holdPeer 0) exclusionHint .new ()).2.1
        ()).2.1.heldRoots .descriptors).length = 9 ∧
      ¬ (runSections zeroHash emptyHost .new crowdedTick).Bounded := by
  refine ⟨by decide +kernel, fun h => ?_⟩
  have hnine : ((runSections zeroHash emptyHost .new crowdedTick).heldRoots
      .descriptors).length = 9 := by decide +kernel
  have hle := (h .descriptors).2
  rw [hnine] at hle
  exact absurd hle (by decide)

end Radiata.Reconcile
