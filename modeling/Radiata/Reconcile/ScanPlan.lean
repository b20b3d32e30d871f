import Radiata.Reconcile.Plane

/-!
# What a scan plan covers

A tick scans the lanes whose families were noted past the epoch that the last scanning
pass claimed.  A lane whose rows changed is therefore scanned as soon as the change was
noted.  The argument needs two things of the writers: the register only grows, and every
change of a lane's rows leaves a note of that lane past the register epoch it started
from.  `Noted` is that contract; it composes over writes, so it extends from the single
writes to a tick's repair and to whole runs.

A `Watch` is a plane with its store that also records, for every lane, the rows the last
scan read and whether a noted write changed them since.
-/

namespace Radiata.Storage.WriteNotes

open Reconcile

def Marks (notes : WriteNotes) (lane : LaneId) (since : ℕ) : Prop :=
  (∃ family ∈ (notes.dirtyNamespacesSince since).1, laneOfNamespace family = some lane) ∨
    (notes.dirtyNamespacesSince since).2.isSome = true

structure Extends (notes next : WriteNotes) : Prop where
  register : notes.registerEpoch ≤ next.registerEpoch
  families : ∀ family, notes.namespaceEpochs family ≤ next.namespaceEpochs family
  untracked : notes.untrackedEpoch ≤ next.untrackedEpoch

structure Bounded (notes : WriteNotes) : Prop where
  families : ∀ family, notes.namespaceEpochs family ≤ notes.registerEpoch
  untracked : notes.untrackedEpoch ≤ notes.registerEpoch

variable {notes next last : WriteNotes} {lane : LaneId} {since : ℕ}

lemma marks_iff : notes.Marks lane since ↔
    (∃ family ∈ namespaces lane, since < notes.namespaceEpochs family) ∨
      since < notes.untrackedEpoch := by
  rw [Marks, dirtyNamespacesSince_untracked]
  simp only [mem_dirtyNamespacesSince, laneOfNamespace_eq_some]
  exact or_congr_left (exists_congr fun family => and_comm)

lemma Extends.refl (notes : WriteNotes) : notes.Extends notes :=
  ⟨le_rfl, fun _ => le_rfl, le_rfl⟩

lemma Extends.trans (h : notes.Extends next) (h' : next.Extends last) : notes.Extends last :=
  ⟨h.register.trans h'.register, fun family => (h.families family).trans (h'.families family),
    h.untracked.trans h'.untracked⟩

lemma Marks.mono {before : ℕ} (h : notes.Marks lane since) (hnext : notes.Extends next)
    (hbefore : before ≤ since) : next.Marks lane before := by
  rw [marks_iff] at h ⊢
  rcases h with ⟨family, hfamily, hlt⟩ | hlt
  · exact .inl ⟨family, hfamily, hbefore.trans_lt (hlt.trans_le (hnext.families family))⟩
  · exact .inr (hbefore.trans_lt (hlt.trans_le hnext.untracked))

lemma Bounded.new : new.Bounded := ⟨fun _ => le_rfl, le_rfl⟩

lemma Bounded.noteLocalWriteIn (h : notes.Bounded) (family : Family) :
    notes.Extends (notes.noteLocalWriteIn family) ∧ (notes.noteLocalWriteIn family).Bounded := by
  have hle (f : Family) : notes.namespaceEpochs f ≤
      (notes.noteLocalWriteIn family).namespaceEpochs f ∧
      (notes.noteLocalWriteIn family).namespaceEpochs f ≤ notes.registerEpoch + 1 := by
    have hf := h.families f
    by_cases heq : f = family
    · subst heq
      rw [namespaceEpochs_noteLocalWriteIn_self]
      exact ⟨by omega, le_rfl⟩
    · rw [namespaceEpochs_noteLocalWriteIn_of_ne heq]
      exact ⟨le_rfl, by omega⟩
  exact ⟨⟨Nat.le_succ _, fun f => (hle f).1, le_rfl⟩, fun f => (hle f).2,
    h.untracked.trans (Nat.le_succ _)⟩

lemma Bounded.noteLocalWrite (h : notes.Bounded) :
    notes.Extends notes.noteLocalWrite ∧ notes.noteLocalWrite.Bounded :=
  ⟨⟨Nat.le_succ _, fun _ => le_rfl, le_max_left _ _⟩,
    fun f => (h.families f).trans (Nat.le_succ _),
    max_le (h.untracked.trans (Nat.le_succ _)) le_rfl⟩

lemma marks_noteLocalWriteIn {family : Family} (h : family ∈ namespaces lane) :
    (notes.noteLocalWriteIn family).Marks lane notes.registerEpoch := by
  refine marks_iff.mpr (.inl ⟨family, h, ?_⟩)
  rw [namespaceEpochs_noteLocalWriteIn_self]
  exact Nat.lt_succ_self _

lemma marks_noteLocalWrite : notes.noteLocalWrite.Marks lane notes.registerEpoch :=
  marks_iff.mpr (.inr (lt_max_of_lt_right (Nat.lt_succ_self _)))

lemma Bounded.foldl (h : notes.Bounded) (noted : List Family) :
    notes.Extends (noted.foldl WriteNotes.noteLocalWriteIn notes) ∧
      (noted.foldl WriteNotes.noteLocalWriteIn notes).Bounded ∧
      ∀ family ∈ noted, ∀ lane, family ∈ namespaces lane →
        (noted.foldl WriteNotes.noteLocalWriteIn notes).Marks lane notes.registerEpoch := by
  induction noted generalizing notes with
  | nil => exact ⟨.refl notes, h, fun _ hmem => absurd hmem List.not_mem_nil⟩
  | cons head tail ih =>
    obtain ⟨hhead, hbounded⟩ := h.noteLocalWriteIn head
    obtain ⟨htail, hfinal, hmarks⟩ := ih hbounded
    refine ⟨hhead.trans htail, hfinal, fun family hmem lane hlane => ?_⟩
    rcases List.mem_cons.mp hmem with rfl | hmem
    · exact (marks_noteLocalWriteIn hlane).mono htail le_rfl
    · exact (hmarks family hmem lane hlane).mono (.refl _) hhead.register

end Radiata.Storage.WriteNotes

namespace Radiata.Reconcile

open Lib Identity Storage

/-! ## The plan -/

lemma mem_scanPlan_of_marks {plane : PlaneState} {notes : WriteNotes} {lane : LaneId}
    (h : notes.Marks lane plane.installEpoch) (alive : List NodeId) :
    lane ∈ (scanPlan plane notes alive).1 := by
  have hall : lane ∈ LaneId.all.toFinset := by cases lane <;> decide
  unfold scanPlan
  dsimp only
  rcases h with ⟨family, hfamily, hlane⟩ | huntracked
  · have hdirty : lane ∈ ((notes.dirtyNamespacesSince plane.installEpoch).1.filterMap
        laneOfNamespace).toFinset :=
      List.mem_toFinset.mpr (List.mem_filterMap.mpr ⟨family, hfamily, hlane⟩)
    split_ifs <;> first | exact hall | exact Finset.mem_union_right _ hdirty
  · rw [huntracked, Bool.or_true]
    exact hall

lemma scanPlan_installEpoch (plane : PlaneState) (notes : WriteNotes) (alive : List NodeId) :
    (scanPlan plane notes alive).2.installEpoch = plane.installEpoch := by
  unfold scanPlan
  dsimp only
  split_ifs <;> rfl

/-! ## The plane's marks along a tick -/

namespace PlaneState

/-- What the plane remembers for the next scan: the epoch it claimed, the forced lanes and the
repair marks. -/
def marks (plane : PlaneState) : ℕ × Finset LaneId × Finset LaneId :=
  (plane.installEpoch, plane.forceRescan, plane.repairPending)

variable (sha256 : Hash)

lemma runAll_marks {α : Type} {f : PlaneState → α → Outbound × PlaneState}
    (h : ∀ p a, (f p a).2.marks = p.marks) (plane : PlaneState) (steps : List α) :
    (runAll f plane steps).2.marks = plane.marks := by
  unfold runAll
  refine List.foldlRecOn (motive := fun acc : Outbound × PlaneState =>
    acc.2.marks = plane.marks) steps _ rfl ?_
  intro acc hacc a _
  exact (h acc.2 a).trans hacc

variable (plane : PlaneState)

lemma driveKnown_marks (peer : NodeId) (lane : LaneId) (input : Drive) :
    (plane.driveKnown sha256 peer lane input).2.marks = plane.marks := by
  unfold driveKnown
  split <;> rfl

lemma releaseLane_marks (lane : LaneId) :
    (plane.releaseLane sha256 lane).2.marks = plane.marks := by
  unfold releaseLane
  split_ifs
  · rfl
  · dsimp only
    rw [runAll_marks fun p peer => driveKnown_marks sha256 p peer lane .rootExchange,
      runAll_marks fun p held => driveKnown_marks sha256 p _ lane _]
    rfl

lemma releaseHeldHints_marks : (plane.releaseHeldHints sha256).2.marks = plane.marks :=
  runAll_marks (releaseLane_marks sha256) plane _

lemma foldl_marks {α : Type} {f : PlaneState → α → PlaneState}
    (h : ∀ p a, (f p a).marks = p.marks) (plane : PlaneState) (steps : List α) :
    (steps.foldl f plane).marks = plane.marks := by
  refine List.foldlRecOn (motive := fun p : PlaneState => p.marks = plane.marks)
    steps _ rfl ?_
  intro p hp a _
  exact (h p a).trans hp

end PlaneState

section Tick

variable {σ : Type} (sha256 : Hash) (host : Host σ) (basis : SweptBasis)

variable (scan : LaneScan)

lemma drivePeers_marks (plan : Finset LaneId) (checkpoint : Option Millis) (plane : PlaneState)
    (alive : List NodeId) :
    (drivePeers sha256 host basis scan plan checkpoint plane alive).2.marks =
      plane.marks := by
  unfold drivePeers
  refine List.foldlRecOn
    (motive := fun acc : (Outbound × List (LaneId × NodeId)) × PlaneState =>
      acc.2.marks = plane.marks) alive _ rfl ?_
  intro acc hacc peer _
  exact hacc

variable (plane : PlaneState)

lemma cadencePeer_marks (peer : NodeId) :
    (cadencePeer sha256 plane peer).2.marks = plane.marks := by
  have hhold := PlaneState.foldl_marks
    (f := fun p lane => p.holdRootExchange lane peer) fun _ _ => rfl
  unfold cadencePeer
  dsimp only
  split
  · exact hhold _ _
  · exact hhold _ _

lemma cadenceWindow_marks : (cadenceWindow sha256 plane).2.marks = plane.marks :=
  PlaneState.runAll_marks (cadencePeer_marks sha256) _ _

lemma drainPeer_marks (peer : NodeId) : (drainPeer sha256 plane peer).2.marks = plane.marks := by
  unfold drainPeer
  split <;> rfl

variable (alive : List NodeId)

lemma tickTail_marks : (tickTail sha256 plane alive).2.marks = plane.marks :=
  (PlaneState.runAll_marks (drainPeer_marks sha256) _ _).trans
    ((PlaneState.releaseHeldHints_marks sha256 _).trans
      (cadenceWindow_marks sha256 plane))

lemma tickPass_installEpoch (epoch : ℕ) (scan : LaneScan) (plan : Finset LaneId)
    (checkpoint : Option Millis) (plane : PlaneState) (alive : List NodeId) :
    (tickPass sha256 host basis epoch scan plan checkpoint plane alive).2.installEpoch =
      if plan = ∅ then plane.installEpoch else epoch := by
  have hdriven := drivePeers_marks sha256 host basis scan plan checkpoint
    (claimEpoch plan epoch plane) alive
  have hheld := PlaneState.foldl_marks
    (f := fun p hold => p.holdRootExchange hold.1 hold.2) (fun _ _ => rfl)
    (drivePeers sha256 host basis scan plan checkpoint (claimEpoch plan epoch plane) alive).2
    (drivePeers sha256 host basis scan plan checkpoint (claimEpoch plan epoch plane) alive).1.2
  refine (congrArg Prod.fst (tickTail_marks sha256 _ alive)).trans ?_
  have hrepair (p : PlaneState) :
      (if plan = ∅ then ([], p) else repairIndex host basis scan plan checkpoint p).2.installEpoch =
        p.installEpoch := by
    split_ifs <;> rfl
  exact (hrepair _).trans (congrArg Prod.fst (hheld.trans hdriven))

def scannedLanes (alive : List NodeId) (plane : PlaneState) (store : σ) : Finset LaneId :=
  match host.hasMembers store with
  | .ok true =>
    if alive.isEmpty then ∅
    else
      match tickScan host store (scanPlan plane (host.notes store) alive).1 with
      | .ok _ => (scanPlan plane (host.notes store) alive).1
      | .error _ => ∅
  | _ => ∅

inductive Applied (store : σ) : σ → Prop
  | refl : Applied store store
  | tail {next : σ} (h : Applied store next) (lane : LaneId) (rows : List Row) :
      Applied store ((host.policy lane).apply next rows).1

lemma applyRepair_applied (store : σ) (repair : LaneScan) :
    (applyRepair host plane store repair).1.installEpoch = plane.installEpoch ∧
      Applied host store (applyRepair host plane store repair).2 := by
  unfold applyRepair
  refine List.foldlRecOn (motive := fun state : PlaneState × σ =>
    state.1.installEpoch = plane.installEpoch ∧ Applied host store state.2) repair _
    ⟨rfl, .refl⟩ ?_
  rintro ⟨p, next⟩ ⟨hepoch, happlied⟩ entry -
  have hstep := happlied.tail entry.1 entry.2
  unfold repairLane
  dsimp only at hepoch hstep ⊢
  split
  · exact ⟨hepoch, hstep⟩
  · exact ⟨hepoch, hstep⟩

lemma tickPass_repair (epoch : ℕ) (scan : LaneScan) (checkpoint : Option Millis)
    (plane : PlaneState) (alive : List NodeId) :
    (tickPass sha256 host basis epoch scan ∅ checkpoint plane alive).1.2 = [] := by
  have hrepair (p : PlaneState) : (if (∅ : Finset LaneId) = ∅ then (([] : LaneScan), p)
      else repairIndex host basis scan ∅ checkpoint p).1 = [] := by
    rw [if_pos rfl]
  exact hrepair plane

lemma tick_of_scan {alive : List NodeId} {plane : PlaneState} {store : σ}
    {checkpoint : Option Millis} {scan : LaneScan} (hmembers : host.hasMembers store = .ok true)
    (halive : alive.isEmpty = false)
    (hscan : tickScan host store (scanPlan plane (host.notes store) alive).1 =
      .ok (checkpoint, scan)) :
    (tick sha256 host basis alive plane store).2 =
      applyRepair host
        (tickPass sha256 host basis (host.notes store).registerEpoch scan
          (scanPlan plane (host.notes store) alive).1 checkpoint
          (scanPlan plane (host.notes store) alive).2 alive).2 store
        (tickPass sha256 host basis (host.notes store).registerEpoch scan
          (scanPlan plane (host.notes store) alive).1 checkpoint
          (scanPlan plane (host.notes store) alive).2 alive).1.2 := by
  unfold tick
  rw [hmembers]
  dsimp only
  rw [halive, if_neg Bool.false_ne_true, hscan]

/-- What a tick does to the claimed epoch and the store: nothing, unless it lists lanes; then
it lists its plan, claims the epoch it read and applies its repair. -/
theorem tick_cases (plane : PlaneState) (store : σ) : (scannedLanes host alive plane store = ∅ ∧
        (tick sha256 host basis alive plane store).2.1.installEpoch = plane.installEpoch ∧
        (tick sha256 host basis alive plane store).2.2 = store) ∨
      (scannedLanes host alive plane store = (scanPlan plane (host.notes store) alive).1 ∧
        (tick sha256 host basis alive plane store).2.1.installEpoch =
          (host.notes store).registerEpoch ∧
        Applied host store (tick sha256 host basis alive plane store).2.2) := by
  cases hmembers : host.hasMembers store with
  | error e =>
    refine .inl ⟨?_, ?_⟩
    · rw [scannedLanes, hmembers]
    · unfold tick
      rw [hmembers]
      exact ⟨rfl, rfl⟩
  | ok members =>
    cases members with
    | false =>
      refine .inl ⟨?_, ?_⟩
      · rw [scannedLanes, hmembers]
      · unfold tick
        rw [hmembers]
        exact ⟨rfl, rfl⟩
    | true =>
      cases halive : alive.isEmpty with
      | true =>
        refine .inl ⟨?_, ?_⟩
        · rw [scannedLanes, hmembers]
          exact if_pos halive
        · unfold tick
          rw [hmembers]
          dsimp only
          rw [if_pos halive]
          exact ⟨rfl, rfl⟩
      | false =>
        cases hscan : tickScan host store (scanPlan plane (host.notes store) alive).1 with
        | error e =>
          refine .inl ⟨?_, ?_⟩
          · rw [scannedLanes, hmembers]
            dsimp only
            rw [halive, if_neg Bool.false_ne_true, hscan]
          · unfold tick
            rw [hmembers]
            dsimp only
            rw [halive, if_neg Bool.false_ne_true, hscan]
            exact ⟨scanPlan_installEpoch plane _ alive, rfl⟩
        | ok read =>
          obtain ⟨checkpoint, scan⟩ := read
          have hlanes : scannedLanes host alive plane store =
              (scanPlan plane (host.notes store) alive).1 := by
            rw [scannedLanes, hmembers]
            dsimp only
            rw [halive, if_neg Bool.false_ne_true, hscan]
          rw [tick_of_scan sha256 host basis hmembers halive hscan, hlanes]
          rw [(applyRepair_applied _ _ _ _).1, tickPass_installEpoch]
          by_cases hplan : (scanPlan plane (host.notes store) alive).1 = ∅
          · refine .inl ⟨hplan, ?_, ?_⟩
            · rw [if_pos hplan, scanPlan_installEpoch]
            · rw [hplan, tickPass_repair]
              rfl
          · exact .inr ⟨rfl, if_neg hplan, (applyRepair_applied _ _ _ _).2⟩

end Tick

/-! ## The claimed epoch along a delivery -/

section Deliver

variable {σ : Type} (sha256 : Hash) (host : Host σ) (basis : SweptBasis)

variable (lane : LaneId) (source : NodeId)

lemma negotiate_marks (message : Message) (rows : List Row) (plane : PlaneState) :
    (negotiate sha256 lane source message rows plane).2.marks = plane.marks := by
  have hadmitted : (admitMessage sha256 lane source message rows plane).2.marks = plane.marks := by
    unfold admitMessage
    dsimp only
    split <;> rfl
  unfold negotiate
  split_ifs
  · rfl
  · exact (PlaneState.releaseHeldHints_marks sha256 _).trans hadmitted

variable (rows : List Row) (plane : PlaneState)

lemma fanOut_marks : (fanOut sha256 lane source rows plane).2.marks = plane.marks := by
  unfold fanOut
  split_ifs <;> rfl

lemma applyReceived_applied (store : σ) :
    (applyReceived host lane rows plane store).2.1.installEpoch = plane.installEpoch ∧
      Applied host store (applyReceived host lane rows plane store).2.2 := by
  unfold applyReceived
  split_ifs
  · exact ⟨rfl, .refl⟩
  · refine ⟨?_, Applied.refl.tail lane rows⟩
    dsimp only
    split_ifs <;> rfl

lemma deliver_applied (message : Message) (plane : PlaneState) (store : σ) :
    (deliver sha256 host basis source message plane store).2.1.installEpoch = plane.installEpoch ∧
      Applied host store (deliver sha256 host basis source message plane store).2.2 := by
  unfold deliver
  dsimp only
  split
  · exact ⟨rfl, .refl⟩
  · next received hreceived =>
    obtain ⟨hepoch, happlied⟩ := applyReceived_applied host message.lane received plane store
    generalize applyReceived host message.lane received plane store = got at hepoch happlied
    obtain ⟨kept, plane', store'⟩ := got
    dsimp only at hepoch happlied ⊢
    generalize (if kept.length ≠ message.carried.length then retainRows message kept
      else message) = retained
    have hnegotiated := congrArg Prod.fst
      (negotiate_marks sha256 message.lane source retained kept plane')
    generalize negotiate sha256 message.lane source retained kept plane' = negotiated at hnegotiated
    obtain ⟨out, plane''⟩ := negotiated
    dsimp only at hnegotiated
    cases out with
    | none => exact ⟨hnegotiated.trans hepoch, happlied⟩
    | some out =>
      have hfanned := congrArg Prod.fst (fanOut_marks sha256 message.lane source kept plane'')
      exact ⟨hfanned.trans (hnegotiated.trans hepoch), happlied⟩

end Deliver

/-! ## The writers' contract -/

section Watch

variable {σ ρ : Type} (host : Host σ) (rows : σ → LaneId → ρ)

/-- What a change of the store owes the plane: the register only grows, and a lane whose rows
changed is marked past the epoch the change started from. -/
structure Noted (store next : σ) : Prop where
  later : (host.notes store).Bounded →
    (host.notes store).Extends (host.notes next) ∧ (host.notes next).Bounded
  marked : (host.notes store).Bounded → ∀ lane, rows next lane ≠ rows store lane →
    (host.notes next).Marks lane (host.notes store).registerEpoch

variable {host rows}

lemma Noted.refl (store : σ) : Noted host rows store store :=
  ⟨fun h => ⟨.refl _, h⟩, fun _ _ h => absurd rfl h⟩

lemma Noted.trans {a b c : σ} (hab : Noted host rows a b) (hbc : Noted host rows b c) :
    Noted host rows a c := by
  refine ⟨fun h => ?_, fun h lane hchanged => ?_⟩
  · obtain ⟨hlater, hbounded⟩ := hab.later h
    obtain ⟨hlater', hbounded'⟩ := hbc.later hbounded
    exact ⟨hlater.trans hlater', hbounded'⟩
  · obtain ⟨hlater, hbounded⟩ := hab.later h
    obtain ⟨hlater', -⟩ := hbc.later hbounded
    by_cases hfirst : rows b lane = rows a lane
    · exact (hbc.marked hbounded lane (hfirst ▸ hchanged)).mono (.refl _) hlater.register
    · exact (hab.marked h lane hfirst).mono hlater' le_rfl

lemma Applied.noted {store next : σ} (h : Applied host store next)
    (happly : ∀ lane store batch, Noted host rows store ((host.policy lane).apply store batch).1) :
    Noted host rows store next := by
  induction h with
  | refl => exact .refl store
  | tail _ lane batch ih => exact ih.trans (happly lane _ batch)

variable (host rows)

/-! ## Watched runs -/

/-- A plane and its store, with what the last scan of each lane read and whether a write
that owes a note changed the lane since. -/
structure Watch (σ ρ : Type) where
  plane : PlaneState
  store : σ
  seen : LaneId → Option ρ
  announced : LaneId → Prop

namespace Watch

def wrote (w : Watch σ ρ) (next : σ) : Watch σ ρ :=
  { w with
    store := next
    announced := fun lane => w.announced lane ∨ rows next lane ≠ rows w.store lane }

def slipped (w : Watch σ ρ) (next : σ) : Watch σ ρ := { w with store := next }

def ticked (sha256 : Hash) (basis : SweptBasis) (alive : List NodeId) (w : Watch σ ρ) :
    Watch σ ρ :=
  let after := (tick sha256 host basis alive w.plane w.store).2
  let scanned := scannedLanes host alive w.plane w.store
  { plane := after.1
    store := after.2
    seen := fun lane => if lane ∈ scanned then some (rows w.store lane) else w.seen lane
    announced := fun lane =>
      (lane ∉ scanned ∧ w.announced lane) ∨ rows after.2 lane ≠ rows w.store lane }

def delivered (sha256 : Hash) (basis : SweptBasis) (source : NodeId) (message : Message)
    (w : Watch σ ρ) : Watch σ ρ :=
  let after := (deliver sha256 host basis source message w.plane w.store).2
  { plane := after.1
    store := after.2
    seen := w.seen
    announced := fun lane => w.announced lane ∨ rows after.2 lane ≠ rows w.store lane }

lemma seen_ticked {sha256 : Hash} {basis : SweptBasis} {alive : List NodeId} {w : Watch σ ρ}
    {lane : LaneId} (h : lane ∈ scannedLanes host alive w.plane w.store) :
    (w.ticked host rows sha256 basis alive).seen lane = some (rows w.store lane) := if_pos h

structure Sound (quiet : LaneId → Prop) (w : Watch σ ρ) : Prop where
  bounded : (host.notes w.store).Bounded
  claimed : w.plane.installEpoch ≤ (host.notes w.store).registerEpoch
  announced : ∀ lane, w.announced lane → (host.notes w.store).Marks lane w.plane.installEpoch
  seen : ∀ lane, ¬quiet lane → ∀ listed, w.seen lane = some listed →
    rows w.store lane = listed ∨ (host.notes w.store).Marks lane w.plane.installEpoch

structure Plans (w : Watch σ ρ) (lane : LaneId) (alive : List NodeId) : Prop where
  marked : (host.notes w.store).Marks lane w.plane.installEpoch
  planned : lane ∈ (scanPlan w.plane (host.notes w.store) alive).1

variable {host rows} {quiet : LaneId → Prop} {w : Watch σ ρ}

section

variable (h : w.Sound host rows quiet)
include h

/-- **A changed lane is planned**, unless it is one of the quiet lanes and no noted write
changed it since its last scan. -/
theorem Sound.plans {lane : LaneId} {listed : ρ} (hseen : w.seen lane = some listed)
    (hchanged : rows w.store lane ≠ listed) (hquiet : quiet lane → w.announced lane)
    (alive : List NodeId) : w.Plans host lane alive := by
  have hmarks : (host.notes w.store).Marks lane w.plane.installEpoch := by
    by_cases hlane : quiet lane
    · exact h.announced lane (hquiet hlane)
    · exact (h.seen lane hlane listed hseen).resolve_left hchanged
  exact ⟨hmarks, mem_scanPlan_of_marks hmarks alive⟩

lemma Sound.change {plane : PlaneState} {next : σ}
    (hepoch : plane.installEpoch = w.plane.installEpoch) (hnoted : Noted host rows w.store next) :
    Sound host rows quiet ⟨plane, next, w.seen,
      fun lane => w.announced lane ∨ rows next lane ≠ rows w.store lane⟩ := by
  obtain ⟨hlater, hbounded⟩ := hnoted.later h.bounded
  have hmarked (lane : LaneId) (hchanged : rows next lane ≠ rows w.store lane) :
      (host.notes next).Marks lane plane.installEpoch := by
    rw [hepoch]
    exact (hnoted.marked h.bounded lane hchanged).mono (.refl _) h.claimed
  refine ⟨hbounded, hepoch ▸ h.claimed.trans hlater.register, fun lane hannounced => ?_,
    fun lane hlane listed hseen => ?_⟩
  · rcases hannounced with hold | hchanged
    · exact (h.announced lane hold).mono hlater hepoch.le
    · exact hmarked lane hchanged
  · by_cases hchanged : rows next lane = rows w.store lane
    · rcases h.seen lane hlane listed hseen with hsame | hmarks
      · exact .inl (hchanged.trans hsame)
      · exact .inr (hmarks.mono hlater hepoch.le)
    · exact .inr (hmarked lane hchanged)

lemma Sound.wrote {next : σ} (hnoted : Noted host rows w.store next) :
    (w.wrote rows next).Sound host rows quiet :=
  h.change rfl hnoted

lemma Sound.slipped {next : σ} (hnotes : host.notes next = host.notes w.store)
    (hrows : ∀ lane, ¬quiet lane → rows next lane = rows w.store lane) :
    (w.slipped next).Sound host rows quiet := by
  refine ⟨hnotes ▸ h.bounded, hnotes ▸ h.claimed, fun lane hlane => hnotes ▸ h.announced lane hlane,
    fun lane hlane listed hseen => ?_⟩
  rw [Watch.slipped, hrows lane hlane, hnotes]
  exact h.seen lane hlane listed hseen

lemma Sound.ticked (sha256 : Hash) (basis : SweptBasis) (alive : List NodeId)
    (happly : ∀ lane store batch, Noted host rows store ((host.policy lane).apply store batch).1) :
    (w.ticked host rows sha256 basis alive).Sound host rows quiet := by
  rcases tick_cases sha256 host basis alive w.plane w.store with
    ⟨hscanned, hepoch, hstore⟩ | ⟨hscanned, hepoch, happlied⟩
  · have hnoted : Noted host rows w.store (tick sha256 host basis alive w.plane w.store).2.2 := by
      rw [hstore]
      exact .refl w.store
    have hchange := h.change hepoch hnoted
    refine ⟨hchange.bounded, hchange.claimed, fun lane hannounced => hchange.announced lane ?_,
      fun lane hlane listed hseen => hchange.seen lane hlane listed ?_⟩
    · exact hannounced.imp_left And.right
    · simpa only [Watch.ticked, hscanned, Finset.notMem_empty, if_false] using hseen
  · obtain ⟨hlater, hbounded⟩ := (happlied.noted happly).later h.bounded
    have hmarked := (happlied.noted happly).marked h.bounded
    have hplanned {lane : LaneId} (hmarks : (host.notes w.store).Marks lane w.plane.installEpoch) :
        lane ∈ scannedLanes host alive w.plane w.store :=
      hscanned ▸ mem_scanPlan_of_marks hmarks alive
    refine ⟨hbounded, hepoch.le.trans hlater.register, fun lane hannounced => ?_,
      fun lane hlane listed hseen => ?_⟩
    · rcases hannounced with ⟨hout, hold⟩ | hchanged
      · exact absurd (hplanned (h.announced lane hold)) hout
      · exact (hmarked lane hchanged).mono (.refl _) hepoch.le
    · have hlisted : rows w.store lane = listed := by
        by_cases hin : lane ∈ scannedLanes host alive w.plane w.store
        · exact Option.some.inj ((if_pos hin).symm.trans hseen)
        · have hold : w.seen lane = some listed := (if_neg hin).symm.trans hseen
          exact (h.seen lane hlane listed hold).resolve_right fun hmarks => hin (hplanned hmarks)
      by_cases hchanged : rows (tick sha256 host basis alive w.plane w.store).2.2 lane =
          rows w.store lane
      · exact .inl (hchanged.trans hlisted)
      · exact .inr ((hmarked lane hchanged).mono (.refl _) hepoch.le)

lemma Sound.delivered (sha256 : Hash) (basis : SweptBasis) (source : NodeId) (message : Message)
    (happly : ∀ lane store batch, Noted host rows store ((host.policy lane).apply store batch).1) :
    (w.delivered host rows sha256 basis source message).Sound host rows quiet := by
  obtain ⟨hepoch, happlied⟩ := deliver_applied sha256 host basis source message w.plane w.store
  exact h.change hepoch (happlied.noted happly)

end

end Watch

end Watch

end Radiata.Reconcile
