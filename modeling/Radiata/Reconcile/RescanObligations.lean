import Radiata.Reconcile.LaneExclusion
import Radiata.Reconcile.ScanPlan
import Radiata.Lib.Runs

/-!
# What a failed tick still owes

A plan takes the forced lanes and, once the epoch advanced, the lanes with a repair set out
of the plane, before the watermark and the lanes are read.  When one of the reads fails the
tick ends there: the plane keeps the epoch its last scan claimed, so a dirty family stays
dirty, but what the plan took is gone.

Between the failed tick and the next one that completes, deliveries, dispatches and further
failed ticks may come in any order; a failed tick is then a plan without a pass.
-/

namespace Radiata.Reconcile

open Lib Identity Storage

/-! ## Plans -/

def dirtyLanes (notes : WriteNotes) (since : ℕ) : Finset LaneId :=
  ((notes.dirtyNamespacesSince since).1.filterMap laneOfNamespace).toFinset

lemma mem_dirtyLanes {notes : WriteNotes} {since : ℕ} {lane : LaneId} :
    lane ∈ dirtyLanes notes since ↔
      ∃ family ∈ namespaces lane, since < notes.namespaceEpochs family := by
  simp only [dirtyLanes, List.mem_toFinset, List.mem_filterMap,
    WriteNotes.mem_dirtyNamespacesSince, laneOfNamespace_eq_some]
  exact exists_congr fun family => and_comm

variable (plane : PlaneState) (notes : WriteNotes)

def owed : Finset LaneId :=
  plane.forceRescan ∪ plane.repairPending ∪ dirtyLanes notes plane.installEpoch

variable (alive : List NodeId)

def plansAll : Bool :=
  let peers := plane.peers.filter fun peer _ => alive.contains peer
  (alive.any fun peer => (peers.get? peer).all fun state => !state.primed) ||
    (notes.dirtyNamespacesSince plane.installEpoch).2.isSome

def epochAdvanced : Prop :=
  notes.registerEpoch ≠ plane.installEpoch

instance (plane : PlaneState) (notes : WriteNotes) : Decidable (epochAdvanced plane notes) :=
  inferInstanceAs (Decidable (_ ≠ _))

lemma scanPlan_fst : (scanPlan plane notes alive).1 =
      if plansAll plane notes alive then LaneId.all.toFinset
      else plane.forceRescan ∪ (if epochAdvanced plane notes then plane.repairPending else ∅) ∪
        dirtyLanes notes plane.installEpoch := by
  unfold scanPlan plansAll epochAdvanced
  dsimp only
  split_ifs <;> simp_all [dirtyLanes]

lemma scanPlan_snd : (scanPlan plane notes alive).2.forceRescan = ∅ ∧
      (scanPlan plane notes alive).2.repairPending =
        (if epochAdvanced plane notes then ∅ else plane.repairPending) ∧
      (scanPlan plane notes alive).2.installEpoch = plane.installEpoch := by
  unfold scanPlan epochAdvanced
  dsimp only
  split_ifs <;> simp_all

/-! ## Sections between two ticks -/

lemma dispatched_marks (peer : NodeId) (message : Message) (delivered weak : Bool)
    (plane : PlaneState) : (dispatched peer message delivered weak plane).marks = plane.marks := by
  unfold dispatched
  split <;> rfl

namespace PlaneSection

def isPlan : PlaneSection → Bool
  | plan _ _ => true
  | _ => false

def isPass : PlaneSection → Bool
  | pass .. => true
  | _ => false

def SeesAdvance (epoch : ℕ) : PlaneSection → Prop
  | plan notes _ => notes.registerEpoch ≠ epoch
  | _ => False

instance (epoch : ℕ) : DecidablePred (SeesAdvance epoch)
  | plan notes _ => inferInstanceAs (Decidable (notes.registerEpoch ≠ epoch))
  | clear | pass .. | rescan _ | negotiate .. | fanOut .. | dispatched .. => .isFalse id

/-- A delivery or a repair forced the lane after the last plan of the sections.  No state is
needed to tell. -/
def ForcedSince (sections : List PlaneSection) (lane : LaneId) : Prop :=
  Since (fun (_ : Unit) (_ : PlaneSection) => ()) isPlan (fun _ s => s = .rescan lane) () sections

variable {σ : Type} (sha256 : Hash) (host : Host σ)

/-- **What a section without a scan does to the plane's marks.** -/
theorem run_marks (plane : PlaneState) {s : PlaneSection} (h : s.isPass = false) :
    (s.run sha256 host plane).installEpoch = plane.installEpoch ∧
      (s.run sha256 host plane).repairPending =
        (if s.SeesAdvance plane.installEpoch then ∅ else plane.repairPending) ∧
      ∀ lane, lane ∈ (s.run sha256 host plane).forceRescan ↔
        s.isPlan = false ∧ (s = .rescan lane ∨ lane ∈ plane.forceRescan) := by
  have hsame (hmarks : (s.run sha256 host plane).marks = plane.marks) (hplan : s.isPlan = false)
      (hadvance : ¬ s.SeesAdvance plane.installEpoch) (hrescan : ∀ lane, s ≠ .rescan lane) :
      (s.run sha256 host plane).installEpoch = plane.installEpoch ∧
        (s.run sha256 host plane).repairPending =
          (if s.SeesAdvance plane.installEpoch then ∅ else plane.repairPending) ∧
        ∀ lane, lane ∈ (s.run sha256 host plane).forceRescan ↔
          s.isPlan = false ∧ (s = .rescan lane ∨ lane ∈ plane.forceRescan) := by
    obtain ⟨hepoch, hrest⟩ := Prod.mk.inj hmarks
    obtain ⟨hforced, hrepair⟩ := Prod.mk.inj hrest
    refine ⟨hepoch, by rw [if_neg hadvance, hrepair], fun lane => ?_⟩
    rw [hforced, and_iff_right hplan, or_iff_right (hrescan lane)]
  cases s with
  | pass => cases h
  | plan notes alive =>
    obtain ⟨hforced, hrepair, hepoch⟩ := scanPlan_snd plane notes alive
    refine ⟨hepoch, hrepair, fun lane => ?_⟩
    rw [run, hforced]
    simp [isPlan]
  | rescan lane =>
    refine ⟨rfl, rfl, fun other => ?_⟩
    rw [run, Finset.mem_insert]
    simp [isPlan, eq_comm]
  | clear => exact hsame rfl rfl id (by simp)
  | negotiate lane source message rows =>
    exact hsame (negotiate_marks sha256 lane source message rows plane) rfl id (by simp)
  | fanOut lane source rows =>
    exact hsame (fanOut_marks sha256 lane source rows plane) rfl id (by simp)
  | dispatched peer message delivered weak =>
    exact hsame (dispatched_marks peer message delivered weak plane) rfl id (by simp)

lemma runSections_marks (plane : PlaneState) {sections : List PlaneSection}
    (h : ∀ s ∈ sections, s.isPass = false) :
    (runSections sha256 host plane sections).installEpoch = plane.installEpoch ∧
      (runSections sha256 host plane sections).repairPending =
        (if ∃ s ∈ sections, s.SeesAdvance plane.installEpoch then ∅ else plane.repairPending) ∧
      ∀ lane, lane ∈ (runSections sha256 host plane sections).forceRescan ↔
        ForcedSince sections lane ∨
          ((∀ s ∈ sections, s.isPlan = false) ∧ lane ∈ plane.forceRescan) := by
  induction sections using List.reverseRecOn with
  | nil =>
    refine ⟨rfl, by simp [runSections], fun lane => ?_⟩
    simp [runSections, ForcedSince, not_since_nil]
  | append_singleton sections s ih =>
    have hs : s.isPass = false := h s (by simp)
    obtain ⟨hepoch, hrepair, hforced⟩ := ih fun t ht => h t (List.mem_append_left _ ht)
    obtain ⟨hepoch', hrepair', hforced'⟩ :=
      run_marks sha256 host (runSections sha256 host plane sections) hs
    rw [runSections_concat]
    refine ⟨hepoch'.trans hepoch, ?_, fun lane => ?_⟩
    · rw [hrepair', hrepair, hepoch]
      simp only [List.mem_append, List.mem_singleton, or_and_right, exists_or, exists_eq_left]
      by_cases hlast : s.SeesAdvance plane.installEpoch <;>
        by_cases hbefore : ∃ t ∈ sections, t.SeesAdvance plane.installEpoch <;>
          simp only [hlast, hbefore, or_true, or_false, if_true, if_false]
    · rw [hforced', hforced, ForcedSince, ForcedSince, since_concat]
      simp only [List.mem_append, List.mem_singleton, or_imp, forall_and, forall_eq]
      tauto

end PlaneSection

/-! ## The failed tick -/

section Failed

variable {σ : Type} (host : Host σ)

structure FailsAfterPlan (alive : List NodeId) (plane : PlaneState) (store : σ) : Prop where
  members : host.hasMembers store = .ok true
  live : alive.isEmpty = false
  fails : ∃ err, tickScan host store (scanPlan plane (host.notes store) alive).1 = .error err

structure Completes (alive : List NodeId) (plane : PlaneState) (store : σ) : Prop where
  members : host.hasMembers store = .ok true
  live : alive.isEmpty = false
  reads : ∃ read, tickScan host store (scanPlan plane (host.notes store) alive).1 = .ok read

variable {host} {alive : List NodeId} {plane : PlaneState} {store : σ}

lemma FailsAfterPlan.tick (h : FailsAfterPlan host alive plane store) (sha256 : Hash)
    (basis : SweptBasis) :
    (Reconcile.tick sha256 host basis alive plane store).2.1 =
      (scanPlan plane (host.notes store) alive).2 := by
  obtain ⟨err, hfails⟩ := h.fails
  unfold Reconcile.tick
  rw [h.members]
  dsimp only
  rw [h.live, if_neg Bool.false_ne_true, hfails]

lemma Completes.scannedLanes (h : Completes host alive plane store) :
    Reconcile.scannedLanes host alive plane store =
      (scanPlan plane (host.notes store) alive).1 := by
  obtain ⟨read, hreads⟩ := h.reads
  rw [Reconcile.scannedLanes, h.members]
  dsimp only
  rw [h.live, if_neg Bool.false_ne_true, hreads]

/-- How a lane that the failed tick took comes back: its family is noted past the epoch, a
delivery forces it after the last plan, or it had a repair set, no plan so far saw the register
advance and the next one does. -/
inductive Recovers (plane : PlaneState) (notes : WriteNotes) (between : List PlaneSection)
    (next : WriteNotes) (lane : LaneId) : Prop where
  | dirty (h : lane ∈ dirtyLanes next plane.installEpoch)
  | forced (h : PlaneSection.ForcedSince between lane)
  | pending (h : lane ∈ plane.repairPending) (hnow : ¬ epochAdvanced plane notes)
      (hbetween : ∀ s ∈ between, ¬ s.SeesAdvance plane.installEpoch)
      (hnext : epochAdvanced plane next)

/-- **What the next scan covers after a failed tick.**  Whatever deliveries and failed ticks
come in between, the next tick that completes scans every lane that was forced, had a repair
set or was dirty exactly when it scans all lanes, or every such lane has recovered. -/
theorem failed_tick_owes_iff {sha256 : Hash} {basis : SweptBasis} {between : List PlaneSection}
    {alive' : List NodeId} {next : σ} (hfailed : FailsAfterPlan host alive plane store)
    (hbetween : ∀ s ∈ between, s.isPass = false)
    (hnext : Completes host alive'
      (runSections sha256 host (tick sha256 host basis alive plane store).2.1 between) next) :
    owed plane (host.notes store) ⊆ scannedLanes host alive'
        (runSections sha256 host (tick sha256 host basis alive plane store).2.1 between) next ↔
      plansAll (runSections sha256 host (tick sha256 host basis alive plane store).2.1 between)
          (host.notes next) alive' = true ∨
        ∀ lane ∈ owed plane (host.notes store),
          Recovers plane (host.notes store) between (host.notes next) lane := by
  rw [hnext.scannedLanes, scanPlan_fst, hfailed.tick sha256 basis]
  obtain ⟨hforced, hrepair, hepoch⟩ := scanPlan_snd plane (host.notes store) alive
  obtain ⟨hepoch', hrepair', hforced'⟩ := PlaneSection.runSections_marks sha256 host
    (scanPlan plane (host.notes store) alive).2 hbetween
  rw [hepoch] at hepoch' hrepair'
  simp only [hforced, Finset.notMem_empty, and_false, or_false] at hforced'
  generalize runSections sha256 host (scanPlan plane (host.notes store) alive).2 between = after
    at hepoch' hrepair' hforced' ⊢
  cases hall : plansAll after (host.notes next) alive' with
  | true =>
    rw [if_pos rfl]
    exact iff_of_true (fun lane _ => by cases lane <;> decide) (.inl rfl)
  | false =>
    rw [if_neg Bool.false_ne_true, or_iff_right Bool.false_ne_true]
    -- a lane is planned exactly when it recovered
    have hplanned (lane : LaneId) :
        lane ∈ after.forceRescan ∪
            (if epochAdvanced after (host.notes next) then after.repairPending else ∅) ∪
            dirtyLanes (host.notes next) after.installEpoch ↔
          Recovers plane (host.notes store) between (host.notes next) lane := by
      have hadvanced : epochAdvanced after (host.notes next) ↔
          epochAdvanced plane (host.notes next) := by rw [epochAdvanced, epochAdvanced, hepoch']
      have hpending : lane ∈ (if epochAdvanced after (host.notes next) then after.repairPending
            else ∅) ↔
          epochAdvanced plane (host.notes next) ∧
            (∀ s ∈ between, ¬ s.SeesAdvance plane.installEpoch) ∧
            ¬ epochAdvanced plane (host.notes store) ∧ lane ∈ plane.repairPending := by
        rw [hrepair', hrepair, ← hadvanced]
        split_ifs <;> simp_all
      rw [Finset.mem_union, Finset.mem_union, hforced', hpending, hepoch']
      constructor
      · rintro ((h | ⟨hnext, hbetween, hnow, h⟩) | h)
        · exact .forced h
        · exact .pending h hnow hbetween hnext
        · exact .dirty h
      · rintro (h | h | ⟨h, hnow, hbetween, hnext⟩)
        · exact .inr h
        · exact .inl (.inl h)
        · exact .inl (.inr ⟨hnext, hbetween, hnow, h⟩)
    exact forall₂_congr fun lane _ => hplanned lane

end Failed

def flakyHost : Host Bool where
  policy _ := ⟨fun broken => if broken then .error ⟨.io, "lane scan"⟩ else .ok [],
    fun _ _ _ _ => false, false, fun _ _ rows => .ok rows, fun store _ => (store, .ok [])⟩
  notes _ := .new
  latestCheckpoint _ := .ok none
  hasMembers _ := .ok true

def forcedPlane : PlaneState :=
  (deliver zeroHash flakyHost ⟨0, 0⟩ (exclusionPeer 0) (.rows .descriptors [⟨[1], [2]⟩])
    (tick zeroHash flakyHost ⟨0, 0⟩ [exclusionPeer 0] .new false).2.1 false).2.1

lemma flakyHost_fails : FailsAfterPlan flakyHost [exclusionPeer 0] forcedPlane true :=
  ⟨rfl, rfl, ⟨.io, "lane scan"⟩, by decide +kernel⟩

/-- A delivery that forces the lane again brings it back. -/
theorem failed_tick_owes_forced :
    FailsAfterPlan flakyHost [exclusionPeer 0] forcedPlane true ∧
      owed forcedPlane (flakyHost.notes true) ⊆ scannedLanes flakyHost [exclusionPeer 0]
        (runSections zeroHash flakyHost (tick zeroHash flakyHost ⟨0, 0⟩
          [exclusionPeer 0] forcedPlane true).2.1 [.rescan .descriptors]) false := by
  have hbetween : ∀ s ∈ [PlaneSection.rescan .descriptors], s.isPass = false := by
    simp [PlaneSection.isPass]
  have hnext : Completes flakyHost [exclusionPeer 0]
      (runSections zeroHash flakyHost (tick zeroHash flakyHost ⟨0, 0⟩
        [exclusionPeer 0] forcedPlane true).2.1 [.rescan .descriptors]) false :=
    ⟨rfl, rfl, (none, [(.descriptors, [])]), by decide +kernel⟩
  refine ⟨flakyHost_fails, (failed_tick_owes_iff flakyHost_fails hbetween hnext).mpr (.inr ?_)⟩
  have honly : owed forcedPlane (flakyHost.notes true) = {.descriptors} := by decide +kernel
  simp only [honly, Finset.mem_singleton, forall_eq]
  exact .forced ⟨[], .rescan .descriptors, [], rfl, by simp [PlaneSection.isPlan], rfl⟩

/-- **A failed tick forgets a forced lane**: the scan fails, and the next tick, which completes,
scans nothing. -/
theorem failed_tick_forgets :
    .descriptors ∈ owed forcedPlane (flakyHost.notes true) ∧
      (tick zeroHash flakyHost ⟨0, 0⟩ [exclusionPeer 0] forcedPlane true).1 =
        .error ⟨.io, "lane scan"⟩ ∧
      scannedLanes flakyHost [exclusionPeer 0]
        (tick zeroHash flakyHost ⟨0, 0⟩ [exclusionPeer 0] forcedPlane true).2.1 false = ∅ := by
  decide +kernel

end Radiata.Reconcile
