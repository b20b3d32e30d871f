import Radiata.Reconcile.RescanObligations

/-!
# Notes that race with ticks

A writer notes its commit in two steps: it takes the next epoch of the register, then it
records that epoch under its family.  A tick reads the register's epoch, asks for the
families recorded past the epoch its plane claimed, scans a snapshot and claims the epoch it
read.  Nothing orders the steps of different writers and of the tick.

Two orders lose a write.  A tick that scans some lane may claim an epoch whose note is not yet
recorded; recorded later, the note is not past the claim.  And a note that is recorded after
a later one of its family takes the family back to its own epoch.  Where neither happens,
every noted write is in the snapshot of a tick that scans its lane.
-/

namespace Radiata.Storage.WriteNotes

open Reconcile

variable (notes : WriteNotes)

def advance : WriteNotes :=
  { notes with registerEpoch := notes.registerEpoch + 1 }

def recordIn (family : Family) (epoch : ℕ) : WriteNotes :=
  { notes with namespaceEpochs := Function.update notes.namespaceEpochs family epoch }

def recordUntracked (epoch : ℕ) : WriteNotes :=
  { notes with untrackedEpoch := max notes.untrackedEpoch epoch }

lemma noteLocalWriteIn_eq (family : Family) :
    notes.noteLocalWriteIn family = notes.advance.recordIn family (notes.registerEpoch + 1) := rfl

lemma noteLocalWrite_eq :
    notes.noteLocalWrite = notes.advance.recordUntracked (notes.registerEpoch + 1) := rfl

end Radiata.Storage.WriteNotes

namespace Radiata.Reconcile

open Lib Identity Storage

/-! ## Plans -/

/-- The lanes a tick plans: those the register marks past the claimed epoch, and those it has
other reasons to scan. -/
def plannedLanes (extra : Finset LaneId) (notes : WriteNotes) (since : ℕ) : Finset LaneId :=
  extra ∪ if (notes.dirtyNamespacesSince since).2.isSome then LaneId.all.toFinset
    else dirtyLanes notes since

lemma mem_plannedLanes_of_marks {extra : Finset LaneId} {notes : WriteNotes} {since : ℕ}
    {lane : LaneId} (h : notes.Marks lane since) : lane ∈ plannedLanes extra notes since := by
  refine Finset.mem_union_right _ ?_
  split_ifs with huntracked
  · cases lane <;> decide
  · rw [WriteNotes.dirtyNamespacesSince_untracked] at huntracked
    exact mem_dirtyLanes.mpr ((WriteNotes.marks_iff.mp h).resolve_right huntracked)

/-- **The plane plans as the racing tick does.** -/
theorem scanPlan_eq_plannedLanes (plane : PlaneState) (notes : WriteNotes) (alive : List NodeId) :
    (scanPlan plane notes alive).1 = plannedLanes
      (if plansAll plane notes alive then LaneId.all.toFinset
        else plane.forceRescan ∪ if epochAdvanced plane notes then plane.repairPending else ∅)
      notes plane.installEpoch := by
  rw [scanPlan_fst]
  by_cases hall : plansAll plane notes alive = true
  · rw [if_pos hall, if_pos hall]
    refine (Finset.union_eq_left.mpr fun lane _ => ?_).symm
    cases lane <;> decide
  · have huntracked : ¬(notes.dirtyNamespacesSince plane.installEpoch).2.isSome = true := by
      intro hsome
      exact hall (by rw [plansAll, hsome, Bool.or_true])
    rw [if_neg hall, if_neg hall, plannedLanes, if_neg huntracked]

/-! ## Writers and the tick -/

/-- A writer: the lane family its write lands in, if any, and whether its note names the
namespace. -/
structure Writer where
  lands : Option Family
  named : Bool

namespace Writer

section

variable (writer : Writer)

def lane : Option LaneId := writer.lands.bind laneOfNamespace

variable (notes : WriteNotes) (epoch : ℕ)

/-- The register after the writer recorded its epoch.  A namespace that no lane carries is
recorded where no plan looks. -/
def record : WriteNotes :=
  match writer.named, writer.lands with
  | true, some family => notes.recordIn family epoch
  | true, none => notes
  | false, _ => notes.recordUntracked epoch

def Recorded : Prop :=
  match writer.named, writer.lands with
  | true, some family => epoch ≤ notes.namespaceEpochs family
  | true, none => True
  | false, _ => epoch ≤ notes.untrackedEpoch

def InOrder : Prop :=
  writer.named = true → ∀ family ∈ writer.lands, notes.namespaceEpochs family < epoch

end

variable {writer other : Writer} {notes : WriteNotes} {epoch : ℕ}

lemma record_registerEpoch :
    (writer.record notes epoch).registerEpoch = notes.registerEpoch := by
  unfold record
  split <;> rfl

lemma recorded_record : writer.Recorded (writer.record notes epoch) epoch := by
  obtain ⟨lands, named⟩ := writer
  cases named with
  | false => exact le_max_right _ _
  | true =>
    cases lands with
    | none => exact trivial
    | some family => exact (Function.update_self family epoch notes.namespaceEpochs).ge

lemma Recorded.record {earlier : ℕ} (h : other.Recorded notes earlier)
    (horder : writer.InOrder notes epoch) : other.Recorded (writer.record notes epoch) earlier := by
  have hfamilies (family : Family) :
      notes.namespaceEpochs family ≤ (writer.record notes epoch).namespaceEpochs family := by
    unfold Writer.record
    split
    · next written hnamed hlands =>
        by_cases heq : family = written
        · subst heq
          exact (horder hnamed family hlands).le.trans
            (Function.update_self family epoch notes.namespaceEpochs).ge
        · exact (Function.update_of_ne heq epoch notes.namespaceEpochs).ge
    · exact le_rfl
    · exact le_rfl
  have huntracked : notes.untrackedEpoch ≤ (writer.record notes epoch).untrackedEpoch := by
    unfold Writer.record
    split
    · exact le_rfl
    · exact le_rfl
    · exact le_max_left _ _
  obtain ⟨lands, named⟩ := other
  cases named with
  | false => exact le_trans h huntracked
  | true =>
    cases lands with
    | none => exact trivial
    | some family => exact le_trans h (hfamilies family)

lemma Recorded.marks {since : ℕ} {lane : LaneId} (h : writer.Recorded notes epoch)
    (hsince : since < epoch) (hlane : writer.lane = some lane) : notes.Marks lane since := by
  rw [WriteNotes.marks_iff]
  obtain ⟨lands, named⟩ := writer
  cases lands with
  | none => cases hlane
  | some family =>
    cases named with
    | false => exact .inr (hsince.trans_le h)
    | true => exact .inl ⟨family, laneOfNamespace_eq_some.mp hlane, hsince.trans_le h⟩

end Writer

inductive WriterPhase where
  | idle
  | committed
  | advanced (epoch : ℕ)
  | recorded (epoch : ℕ)
deriving DecidableEq

def WriterPhase.epoch : WriterPhase → Option ℕ
  | advanced epoch | recorded epoch => some epoch
  | _ => none

inductive TickPhase (ι : Type) where
  | idle
  | read (epoch : ℕ)
  | planned (epoch : ℕ) (plan : Finset LaneId)
  | scanned (epoch : ℕ) (plan : Finset LaneId) (snapshot : ι → Bool)

/-- The register, the plane's claim, the writers and the tick.  The last field records which
writes were in the snapshot of a tick that scanned their lane. -/
structure NoteState (ι : Type) where
  notes : WriteNotes
  installEpoch : ℕ
  phase : ι → WriterPhase
  tick : TickPhase ι
  seen : ι → Bool

inductive NoteAction (ι : Type) where
  | commit (i : ι)
  | advance (i : ι)
  | record (i : ι)
  | read
  | query (extra : Finset LaneId)
  | abandon
  | snapshot
  | finish

namespace NoteState

variable {ι : Type}

def init : NoteState ι := ⟨.new, 0, fun _ => .idle, .idle, fun _ => false⟩

def epoch (s : NoteState ι) (i : ι) : Option ℕ := (s.phase i).epoch

variable [DecidableEq ι] (writer : ι → Writer)

section

variable (s : NoteState ι)

/-- A step of a writer, which commits and notes its write, or of the tick that scans. -/
def step : NoteAction ι → NoteState ι
  | .commit i =>
    match s.phase i with
    | .idle => { s with phase := Function.update s.phase i .committed }
    | _ => s
  | .advance i =>
    match s.phase i with
    | .committed =>
      { s with
        notes := s.notes.advance
        phase := Function.update s.phase i (.advanced (s.notes.registerEpoch + 1)) }
    | _ => s
  | .record i =>
    match s.phase i with
    | .advanced epoch =>
      { s with
        notes := (writer i).record s.notes epoch
        phase := Function.update s.phase i (.recorded epoch) }
    | _ => s
  | .read =>
    match s.tick with
    | .idle => { s with tick := .read s.notes.registerEpoch }
    | _ => s
  | .query extra =>
    match s.tick with
    | .read epoch => { s with tick := .planned epoch (plannedLanes extra s.notes s.installEpoch) }
    | _ => s
  | .abandon =>
    match s.tick with
    | .read _ | .planned _ _ => { s with tick := .idle }
    | _ => s
  | .snapshot =>
    match s.tick with
    | .planned epoch plan =>
      { s with tick := .scanned epoch plan fun i => decide (s.phase i ≠ .idle) }
    | _ => s
  | .finish =>
    match s.tick with
    | .scanned epoch plan snapshot =>
      -- a pass that scanned claims the epoch it read
      { s with
        installEpoch := if plan = ∅ then s.installEpoch else epoch
        tick := .idle
        seen := fun i => s.seen i || snapshot i && (writer i).lane.any (· ∈ plan) }
    | _ => s

def furtherTick (extra : Finset LaneId) : List (NoteAction ι) :=
  [.read, .query extra, .snapshot, .finish]

/-- **No noted write is lost**: after the run and one further tick, every noted write to a
lane is in the snapshot of a tick that scanned the lane after the commit. -/
def KeepsNotes (as : List (NoteAction ι)) : Prop :=
  (as.foldl (step writer) init).tick = .idle → ∀ extra i epoch lane,
    (as.foldl (step writer) init).phase i = .recorded epoch → (writer i).lane = some lane →
      ((as ++ furtherTick extra).foldl (step writer) init).seen i = true

/-- **The order of notes and ticks that loses nothing**: when a tick that plans a lane asks for
the dirty families, every note at or below the epoch it read is recorded or of a planned lane;
and the notes of a family are recorded in the order of their epochs. -/
def Orderly : NoteAction ι → Prop
  | .query extra => ∀ epoch, s.tick = .read epoch →
      plannedLanes extra s.notes s.installEpoch ≠ ∅ →
      ∀ i noted lane, s.phase i = .advanced noted → noted ≤ epoch → (writer i).lane = some lane →
        lane ∈ plannedLanes extra s.notes s.installEpoch
  | .record i => ∀ epoch, s.phase i = .advanced epoch → (writer i).InOrder s.notes epoch
  | _ => True

/-! ## The invariant -/

/-- A tick past its read: the register has its epoch, and every note up to it is of a planned
lane or seen; a snapshot holds the writes of those notes. -/
def TickSafe : TickPhase ι → Prop
  | .idle => True
  | .read epoch => epoch ≤ s.notes.registerEpoch
  | .planned epoch plan => epoch ≤ s.notes.registerEpoch ∧ (plan ≠ ∅ →
      ∀ i noted lane, s.epoch i = some noted → noted ≤ epoch → (writer i).lane = some lane →
        lane ∈ plan ∨ s.seen i = true)
  | .scanned epoch plan snapshot => epoch ≤ s.notes.registerEpoch ∧ (plan ≠ ∅ →
      ∀ i noted lane, s.epoch i = some noted → noted ≤ epoch → (writer i).lane = some lane →
        lane ∈ plan ∧ snapshot i = true ∨ s.seen i = true)

end

structure Safe (s : NoteState ι) : Prop where
  counted : ∀ i noted, s.epoch i = some noted → noted ≤ s.notes.registerEpoch
  claimed : s.installEpoch ≤ s.notes.registerEpoch
  recorded : ∀ i noted, s.phase i = .recorded noted → (writer i).Recorded s.notes noted
  fresh : ∀ i noted lane, s.epoch i = some noted → (writer i).lane = some lane →
    s.seen i = false → s.installEpoch < noted
  tick : TickSafe writer s s.tick

variable {writer} {s : NoteState ι}

variable {i : ι} {noted : ℕ}

omit [DecidableEq ι] in
lemma epoch_of_recorded (h : s.phase i = .recorded noted) :
    s.epoch i = some noted := by rw [epoch, h]; rfl

omit [DecidableEq ι] in
lemma Safe.init : Safe writer (init : NoteState ι) where
  counted := fun _ _ h => nomatch h
  claimed := le_rfl
  recorded := fun _ _ h => nomatch h
  fresh := fun _ _ _ h => nomatch h
  tick := trivial

/-! ### Steps of the writers -/

section

variable (h : Safe writer s)
include h

lemma Safe.writerStep {notes : WriteNotes} {next : WriterPhase}
    (hregister : s.notes.registerEpoch ≤ notes.registerEpoch)
    (hnext : ∀ noted, next.epoch = some noted → s.epoch i = some noted ∨ s.notes.registerEpoch <
      noted ∧ noted ≤ notes.registerEpoch)
    (hi : ∀ noted, next = .recorded noted → (writer i).Recorded notes noted)
    (hothers : ∀ j noted, s.phase j = .recorded noted → (writer j).Recorded notes noted) :
    Safe writer { s with notes := notes, phase := Function.update s.phase i next } := by
  -- an epoch of the new state is the writer's own old one or past all that was counted
  have hepoch (j : ι) (noted : ℕ) (hj : (Function.update s.phase i next j).epoch = some noted) :
      s.epoch j = some noted ∨ s.notes.registerEpoch < noted ∧ noted ≤ notes.registerEpoch := by
    by_cases heq : j = i
    · subst heq
      rw [Function.update_self] at hj
      exact hnext noted hj
    · rw [Function.update_of_ne heq] at hj
      exact .inl hj
  refine ⟨fun j noted hj => ?_, h.claimed.trans hregister, fun j noted hj => ?_,
    fun j noted lane hj hlane hseen => ?_, ?_⟩
  · rcases hepoch j noted hj with hold | ⟨-, hle⟩
    · exact (h.counted j noted hold).trans hregister
    · exact hle
  · by_cases heq : j = i
    · subst heq
      exact hi noted ((Function.update_self ..).symm.trans hj)
    · exact hothers j noted ((Function.update_of_ne heq ..).symm.trans hj)
  · rcases hepoch j noted hj with hold | ⟨hlt, -⟩
    · exact h.fresh j noted lane hold hlane hseen
    · exact h.claimed.trans_lt hlt
  · have htick := h.tick
    show TickSafe writer _ s.tick
    revert htick
    cases s.tick with
    | idle => exact fun _ => trivial
    | read epoch => exact fun hle => hle.trans hregister
    | planned epoch plan | scanned epoch plan snapshot =>
      rintro ⟨hle, hplan⟩
      refine ⟨hle.trans hregister, fun hne j noted lane hj hnoted hlane => ?_⟩
      rcases hepoch j noted hj with hold | ⟨hlt, -⟩
      · exact hplan hne j noted lane hold hnoted hlane
      · exact absurd (hlt.trans_le (hnoted.trans hle)) (lt_irrefl _)

lemma Safe.commit (i : ι) : Safe writer (s.step writer (.commit i)) := by
  simp only [step]
  split
  · exact h.writerStep le_rfl (fun _ hnone => nomatch hnone) (fun _ hne => nomatch hne) h.recorded
  · exact h

lemma Safe.advance (i : ι) : Safe writer (s.step writer (.advance i)) := by
  simp only [step]
  split
  · refine h.writerStep (Nat.le_succ _) (fun noted hnoted => .inr ?_) (fun _ hne => nomatch hne) ?_
    · obtain rfl := Option.some.inj hnoted
      exact ⟨Nat.lt_succ_self _, le_rfl⟩
    · exact h.recorded
  · exact h

lemma Safe.record (i : ι) (horder : Orderly writer s (.record i)) :
    Safe writer (s.step writer (.record i)) := by
  simp only [step]
  split
  · next taken hadvanced =>
      refine h.writerStep Writer.record_registerEpoch.ge (fun noted hnoted => .inl ?_) ?_ ?_
      · rw [epoch, hadvanced]
        exact hnoted
      · intro noted hnoted
        cases hnoted
        exact Writer.recorded_record
      · exact fun j noted hj => (h.recorded j noted hj).record (horder taken hadvanced)
  · exact h

/-! ### Steps of the tick -/

omit [DecidableEq ι] in
lemma Safe.tickStep {next : TickPhase ι} (hnext : TickSafe writer s next) :
    Safe writer { s with tick := next } := by
  refine ⟨h.counted, h.claimed, h.recorded, h.fresh, ?_⟩
  revert hnext
  cases next <;> exact id

lemma Safe.read : Safe writer (s.step writer .read) := by
  simp only [step]
  split
  · exact h.tickStep le_rfl
  · exact h

lemma Safe.abandon : Safe writer (s.step writer .abandon) := by
  simp only [step]
  split
  · exact h.tickStep trivial
  · exact h.tickStep trivial
  · exact h

omit [DecidableEq ι] in
lemma Safe.marks {lane : LaneId} (hphase : s.phase i = .recorded noted)
    (hlane : (writer i).lane = some lane) (hseen : s.seen i = false) :
    s.notes.Marks lane s.installEpoch :=
  (h.recorded i noted hphase).marks (h.fresh i noted lane (epoch_of_recorded hphase) hlane hseen)
    hlane

end

lemma Safe.query (h : Safe writer s) (extra : Finset LaneId)
    (horder : Orderly writer s (.query extra)) : Safe writer (s.step writer (.query extra)) := by
  simp only [step]
  split
  · next taken hread =>
      have htick := h.tick
      rw [hread] at htick
      refine h.tickStep ⟨htick, fun hne i noted lane hi hle hlane => ?_⟩
      cases hseen : s.seen i with
      | true => exact .inr rfl
      | false =>
        refine .inl ?_
        -- a recorded note is found by the query, an unrecorded one is the order's business
        cases hphase : s.phase i with
        | idle | committed =>
          rw [epoch, hphase] at hi
          cases hi
        | advanced e =>
          rw [epoch, hphase] at hi
          exact horder taken hread hne i e lane hphase (Option.some.inj hi ▸ hle) hlane
        | recorded e => exact mem_plannedLanes_of_marks (h.marks hphase hlane hseen)
  · exact h

lemma Safe.snapshot (h : Safe writer s) : Safe writer (s.step writer .snapshot) := by
  simp only [step]
  split
  · next taken plan hplanned =>
      have htick := h.tick
      rw [hplanned] at htick
      refine h.tickStep ⟨htick.1, fun hne i noted lane hi hle hlane => ?_⟩
      refine (htick.2 hne i noted lane hi hle hlane).imp_left fun hmem => ⟨hmem, ?_⟩
      refine decide_eq_true fun hidle => ?_
      rw [epoch, hidle] at hi
      cases hi
  · exact h

lemma Safe.finish (h : Safe writer s) : Safe writer (s.step writer .finish) := by
  simp only [step]
  split
  · next taken plan snapshot hscanned =>
      have htick := h.tick
      rw [hscanned] at htick
      obtain ⟨hle, hcovered⟩ := htick
      refine ⟨h.counted, ?_, h.recorded, fun i noted lane hi hlane hseen => ?_, trivial⟩
      · show (if plan = ∅ then s.installEpoch else taken) ≤ s.notes.registerEpoch
        split_ifs
        · exact h.claimed
        · exact hle
      · obtain ⟨hseen, hnot⟩ := Bool.or_eq_false_iff.mp hseen
        show (if plan = ∅ then s.installEpoch else taken) < noted
        split_ifs with hplan
        · exact h.fresh i noted lane hi hlane hseen
        · -- a note at or below the claim was seen before or is seen now
          by_contra hnoted
          rcases hcovered hplan i noted lane hi (not_lt.mp hnoted) hlane with ⟨hmem, hsnap⟩ | hold
          · rw [hsnap, hlane] at hnot
            simp [hmem] at hnot
          · rw [hseen] at hold
            cases hold
  · exact h

lemma Safe.step (h : Safe writer s) {a : NoteAction ι} (horder : Orderly writer s a) :
    Safe writer (s.step writer a) := by
  cases a with
  | commit i => exact h.commit i
  | advance i => exact h.advance i
  | record i => exact h.record i horder
  | read => exact h.read
  | query extra => exact h.query extra horder
  | abandon => exact h.abandon
  | snapshot => exact h.snapshot
  | finish => exact h.finish

/-- **Orderly runs are safe.** -/
theorem safe_of_orderly {as : List (NoteAction ι)}
    (h : EveryStep (NoteState.step writer) (Orderly writer) init as) :
    Safe writer (as.foldl (NoteState.step writer) init) :=
  invariant_of_run .init (fun before a after hsplit hsafe => hsafe.step (h before a after hsplit))
    as [] (List.append_nil as).symm

/-! ## The further tick -/

lemma seen_furtherTick {extra : Finset LaneId} {lane : LaneId} (hidle : s.tick = .idle)
    (hphase : s.phase i = .recorded noted) (hlane : (writer i).lane = some lane)
    (hmarks : s.seen i = false → s.notes.Marks lane s.installEpoch) :
    ((furtherTick extra).foldl (NoteState.step writer) s).seen i = true := by
  simp only [furtherTick, List.foldl_cons, List.foldl_nil, NoteState.step, hidle, hphase, hlane]
  cases hseen : s.seen i with
  | true => rfl
  | false =>
    have hplanned : lane ∈ plannedLanes extra s.notes s.installEpoch :=
      mem_plannedLanes_of_marks (hmarks hseen)
    simp [hplanned]

/-- **Every noted write is scanned** after an orderly run and one further tick. -/
theorem noted_writes_scanned {as : List (NoteAction ι)}
    (h : EveryStep (NoteState.step writer) (Orderly writer) init as) : KeepsNotes writer as := by
  intro hidle extra i noted lane hphase hlane
  rw [List.foldl_append]
  exact seen_furtherTick hidle hphase hlane ((safe_of_orderly h).marks hphase hlane)

def descriptorAndBinding : Fin 2 → Writer :=
  fun i => ⟨some (if i = 0 then .nodeDescriptor else .identityBinding), true⟩

/-- A descriptor is noted, a tick scans it, and a binding is noted after the tick. -/
theorem orderly_notes_scanned :
    KeepsNotes descriptorAndBinding
      [.commit 0, .advance 0, .record 0, .read, .query ∅, .snapshot, .finish, .commit 1, .advance 1,
        .record 1] := by
  refine noted_writes_scanned ?_
  simp only [everyStep_cons, everyStep_nil, and_true]
  refine ⟨trivial, trivial, fun epoch h _ family hfamily => ?_, trivial, ?_, trivial, trivial,
    trivial,
    trivial, fun epoch h _ family hfamily => ?_⟩
  · cases h
    cases hfamily
    decide
  · intro epoch _ _ i noted lane hphase
    fin_cases i <;> cases hphase
  · cases h
    cases hfamily
    decide

/-- The tick reads the epoch of the second note before it is recorded, and scans the lane of
the first. -/
def unrecordedRun : List (NoteAction (Fin 2)) :=
  [.commit 0, .advance 0, .record 0, .commit 1, .advance 1, .read, .query ∅, .snapshot, .finish,
    .record 1]

def twoDescriptors : Fin 2 → Writer := fun _ => ⟨some .nodeDescriptor, true⟩

/-- The lane is scanned for another reason between the first note's steps; the second note is
complete before the first is recorded. -/
def reorderedRun : List (NoteAction (Fin 2)) :=
  [.commit 0, .advance 0, .read, .query {.descriptors}, .snapshot, .commit 1, .advance 1, .record 1,
    .finish, .record 0]

/-- **Two interleavings that lose a write**: all notes are complete, a further tick runs, and
the second write is in no snapshot of a tick that scanned its lane. -/
theorem racing_notes_lost :
    (∀ i, (unrecordedRun.foldl (NoteState.step descriptorAndBinding) init).phase i =
        .recorded (i + 1)) ∧
      ¬KeepsNotes descriptorAndBinding unrecordedRun ∧
      (∀ i, (reorderedRun.foldl (NoteState.step twoDescriptors) init).phase i = .recorded (i + 1)) ∧
      ¬KeepsNotes twoDescriptors reorderedRun := by
  refine ⟨by decide, ?_, by decide, ?_⟩
  · intro h
    have hseen := h rfl ∅ 1 2 .trust (by decide) (by decide)
    exact absurd hseen (by decide +kernel)
  · intro h
    have hseen := h rfl ∅ 1 2 .descriptors (by decide) (by decide)
    exact absurd hseen (by decide +kernel)

end NoteState

end Radiata.Reconcile
