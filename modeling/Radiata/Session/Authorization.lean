import Radiata.Lib.OrdSet
import Radiata.Lib.Section
import Radiata.Session.Table

/-!
# Revocation against session publication

A handshake is admitted against the durable revocations, and its session is published any number
of steps later.  A revocation may commit in between.  Publication, revocation and purge meet in
one exclusive section over the ledger of the subjects revoked in this incarnation: a publication
checks the ledger and inserts its entry inside it, and a revocation records its subject and
retires the subject's session inside it.

Every statement of the source that touches shared state is a step of its own, so other tasks and
the ends of sessions fall between any two of them.  A local revocation commits inside the
section; a received one installs its record before it enters.
-/

namespace Radiata.Session

open Lib

inductive Task where
  | publish (peer : NodeId) (direction : DialDirection)
  | revoke (subject : NodeId)
  | apply (subject : NodeId)
  | purge (subject : NodeId)
deriving DecidableEq

def Task.revokes : Task → Option NodeId
  | .revoke subject => some subject
  | .apply subject => some subject
  | _ => none

inductive Stage (τ : Type) where
  | idle
  | waiting
  -- a publication
  | checking
  | inserting
  | draining (previous : Option (SessionEntry τ))
  | publishing
  | yielding
  | refused
  | serving
  | ending
  -- a revocation
  | committing
  | recording
  | retiring
  -- a purge
  | clearing
  | forgetting
  | leaving
  | done
  | failed

def Stage.inside {τ : Type} : Stage τ → Bool
  | .checking | .inserting | .draining _ | .publishing | .yielding => true
  | .committing | .recording | .retiring => true
  | .clearing | .forgetting => true
  | .leaving => true
  | _ => false

structure AuthState (τ : Type) where
  tasks : Section τ (Stage τ)
  table : SessionTable τ
  ledger : OrdSet NodeId
  durable : OrdSet NodeId

def forget (subjects : OrdSet NodeId) (subject : NodeId) : OrdSet NodeId :=
  subjects.filter fun other _ => decide (other ≠ subject)

variable {subjects : OrdSet NodeId} {subject other : NodeId}

lemma contains_add (h : subject = other ∨ subjects.contains subject = true) :
    (OrdSet.add subjects other).contains subject = true := by
  show subject ∈ (subjects.add other).members
  rw [OrdSet.members_add]
  exact h

lemma contains_forget : OrdSet.contains (forget subjects other) subject = true ↔
      subjects.contains subject = true ∧ subject ≠ other := by
  rw [forget, OrdSet.contains_iff, OrdMap.mem_filter, OrdSet.contains_iff, decide_eq_true_iff]

lemma contains_forget_of_ne (hne : subject ≠ other) (h : subjects.contains subject = true) :
    OrdSet.contains (forget subjects other) subject = true :=
  contains_forget.mpr ⟨h, hne⟩

lemma contains_forget_eq_false (h : subjects.contains subject = false) :
    OrdSet.contains (forget subjects other) subject = false := by
  rw [Bool.eq_false_iff] at h ⊢
  exact fun hcontains => h (contains_forget.mp hcontains).1

section Steps

variable {τ : Type} [DecidableEq τ]

/-- One step of a publication, a revocation or a purge on the shared session table. -/
inductive AuthStep (localNode : NodeId) (work : τ → Task) (s : AuthState τ) : AuthState τ → Prop
  -- `run_session`: the admission before the exchange, then the section
  | admits (t : τ) (peer : NodeId) (direction : DialDirection)
      (task : work t = .publish peer direction) (stage : s.tasks.stage t = .idle)
      (trusted : s.durable.contains peer = false) :
      AuthStep localNode work s { s with tasks := s.tasks.move t .waiting }
  | arrives (t : τ) (peer : NodeId) (direction : DialDirection)
      (task : work t = .publish peer direction) (stage : s.tasks.stage t = .waiting)
      (free : s.tasks.holder = none) :
      AuthStep localNode work s { s with tasks := s.tasks.enter t .checking }
  | refuses (t : τ) (peer : NodeId) (direction : DialDirection)
      (task : work t = .publish peer direction) (stage : s.tasks.stage t = .checking)
      (revoked : s.ledger.contains peer = true) :
      AuthStep localNode work s { s with tasks := s.tasks.leave t .refused }
  | givesUp (t : τ) (peer : NodeId) (direction : DialDirection)
      (task : work t = .publish peer direction) (stage : s.tasks.stage t = .refused) :
      AuthStep localNode work s { s with tasks := s.tasks.move t .done, table := s.table.kill t }
  | passes (t : τ) (peer : NodeId) (direction : DialDirection)
      (task : work t = .publish peer direction) (stage : s.tasks.stage t = .checking)
      (clear : s.ledger.contains peer = false) :
      AuthStep localNode work s { s with tasks := s.tasks.move t .inserting }
  | inserts (t : τ) (peer : NodeId) (direction : DialDirection)
      (task : work t = .publish peer direction) (stage : s.tasks.stage t = .inserting)
      (replaces : s.table.replaces localNode peer direction = true) :
      AuthStep localNode work s
        { s with
          tasks := s.tasks.move t (.draining (s.table.entries peer))
          table := s.table.insert peer t direction }
  | drains (t : τ) (peer : NodeId) (direction : DialDirection)
      (previous : Option (SessionEntry τ))
      (task : work t = .publish peer direction) (stage : s.tasks.stage t = .draining previous) :
      AuthStep localNode work s
        { s with tasks := s.tasks.move t .publishing, table := s.table.retire previous }
  | serves (t : τ) (peer : NodeId) (direction : DialDirection)
      (task : work t = .publish peer direction) (stage : s.tasks.stage t = .publishing) :
      AuthStep localNode work s { s with tasks := s.tasks.leave t .serving }
  -- the crossed-dial rule keeps the entry there is
  | yields (t : τ) (peer : NodeId) (direction : DialDirection)
      (task : work t = .publish peer direction) (stage : s.tasks.stage t = .inserting)
      (keeps : s.table.replaces localNode peer direction = false) :
      AuthStep localNode work s
        { s with tasks := s.tasks.move t .yielding, table := s.table.kill t }
  | returns (t : τ) (peer : NodeId) (direction : DialDirection)
      (task : work t = .publish peer direction) (stage : s.tasks.stage t = .yielding) :
      AuthStep localNode work s { s with tasks := s.tasks.leave t .done }
  -- the reader, the writer, a signal or the liveness policy ends the session
  | ends (t : τ) (peer : NodeId) (direction : DialDirection)
      (task : work t = .publish peer direction) (stage : s.tasks.stage t = .serving) :
      AuthStep localNode work s { s with tasks := s.tasks.move t .ending, table := s.table.kill t }
  | cleans (t : τ) (peer : NodeId) (direction : DialDirection)
      (task : work t = .publish peer direction) (stage : s.tasks.stage t = .ending) :
      AuthStep localNode work s
        { s with tasks := s.tasks.move t .done, table := s.table.cleanup peer }
  -- disconnects, prunings and the shutdown retire sessions outside the section
  | disconnects (peer : NodeId) :
      AuthStep localNode work s { s with table := s.table.retireSession peer }
  -- `reconcile_revoke`: the commit is inside the section
  | orders (t : τ) (subject : NodeId) (task : work t = .revoke subject)
      (stage : s.tasks.stage t = .idle) (free : s.tasks.holder = none) :
      AuthStep localNode work s { s with tasks := s.tasks.enter t .committing }
  | commits (t : τ) (subject : NodeId) (task : work t = .revoke subject)
      (stage : s.tasks.stage t = .committing) :
      AuthStep localNode work s
        { s with tasks := s.tasks.move t .recording, durable := s.durable.add subject }
  -- a commit that reports an error may have persisted
  | aborts (t : τ) (subject : NodeId) (persisted : Bool) (task : work t = .revoke subject)
      (stage : s.tasks.stage t = .committing) :
      AuthStep localNode work s
        { s with
          tasks := s.tasks.leave t .failed
          durable := if persisted then s.durable.add subject else s.durable }
  -- `apply_revocation_record`: the install is outside the section
  | installs (t : τ) (subject : NodeId) (task : work t = .apply subject)
      (stage : s.tasks.stage t = .idle) :
      AuthStep localNode work s
        { s with tasks := s.tasks.move t .waiting, durable := s.durable.add subject }
  | skips (t : τ) (subject : NodeId) (persisted : Bool) (task : work t = .apply subject)
      (stage : s.tasks.stage t = .idle) :
      AuthStep localNode work s
        { s with
          tasks := s.tasks.move t .failed
          durable := if persisted then s.durable.add subject else s.durable }
  | receives (t : τ) (subject : NodeId) (task : work t = .apply subject)
      (stage : s.tasks.stage t = .waiting) (free : s.tasks.holder = none) :
      AuthStep localNode work s { s with tasks := s.tasks.enter t .recording }
  -- both: the ledger record and the retirement
  | records (t : τ) (subject : NodeId) (task : (work t).revokes = some subject)
      (stage : s.tasks.stage t = .recording) :
      AuthStep localNode work s
        { s with tasks := s.tasks.move t .retiring, ledger := s.ledger.add subject }
  | retires (t : τ) (subject : NodeId) (task : (work t).revokes = some subject)
      (stage : s.tasks.stage t = .retiring) :
      AuthStep localNode work s
        { s with tasks := s.tasks.move t .leaving, table := s.table.retireSession subject }
  | leaves (t : τ) (stage : s.tasks.stage t = .leaving) :
      AuthStep localNode work s { s with tasks := s.tasks.leave t .done }
  -- `reconcile_purge_revocation`
  | begins (t : τ) (subject : NodeId) (task : work t = .purge subject)
      (stage : s.tasks.stage t = .idle) (free : s.tasks.holder = none) :
      AuthStep localNode work s { s with tasks := s.tasks.enter t .clearing }
  | clears (t : τ) (subject : NodeId) (task : work t = .purge subject)
      (stage : s.tasks.stage t = .clearing) :
      AuthStep localNode work s
        { s with tasks := s.tasks.move t .forgetting, durable := forget s.durable subject }
  | stalls (t : τ) (subject : NodeId) (persisted : Bool) (task : work t = .purge subject)
      (stage : s.tasks.stage t = .clearing) :
      AuthStep localNode work s
        { s with
          tasks := s.tasks.leave t .failed
          durable := if persisted then forget s.durable subject else s.durable }
  | forgets (t : τ) (subject : NodeId) (task : work t = .purge subject)
      (stage : s.tasks.stage t = .forgetting) :
      AuthStep localNode work s
        { s with tasks := s.tasks.move t .leaving, ledger := forget s.ledger subject }

/-- The start of an incarnation: no task ran, the ledger is empty, and the durable revocations
are those of earlier incarnations. -/
structure AuthState.Initial (s : AuthState τ) : Prop where
  holder : s.tasks.holder = none
  stage : ∀ t, s.tasks.stage t = .idle
  entries : ∀ peer, s.table.entries peer = none
  alive : ∀ t, s.table.alive t = true
  ledger : s.ledger = OrdMap.empty

inductive AuthReachable (localNode : NodeId) (work : τ → Task) : AuthState τ → Prop
  | start (s : AuthState τ) (initial : s.Initial) : AuthReachable localNode work s
  | step (s s' : AuthState τ) (reached : AuthReachable localNode work s)
      (next : AuthStep localNode work s s') : AuthReachable localNode work s'

end Steps

/-! ## What one step does -/

def Stage.recorded {τ : Type} : Stage τ → Bool
  | .retiring | .leaving | .done => true
  | _ => false

def Stage.retired {τ : Type} : Stage τ → Bool
  | .leaving | .done => true
  | _ => false

lemma Stage.recorded_of_retired {τ : Type} {stage : Stage τ} (h : stage.retired = true) :
    stage.recorded = true := by
  cases stage <;> first | rfl | cases h

section Effects

variable {τ : Type} [DecidableEq τ] {localNode : NodeId} {work : τ → Task} {s s' : AuthState τ}

lemma AuthStep.exclusive (step : AuthStep localNode work s s')
    (h : s.tasks.Exclusive Stage.inside) : s'.tasks.Exclusive Stage.inside := by
  cases step with
  | disconnects => exact h
  | arrives _ _ _ _ _ free | orders _ _ _ _ free | receives _ _ _ _ free | begins _ _ _ _ free =>
    exact h.enter free
  | refuses _ _ _ _ stage | serves _ _ _ _ stage | returns _ _ _ _ stage | aborts _ _ _ _ stage
  | stalls _ _ _ _ stage | leaves _ stage =>
    exact h.leave (by rw [stage]; rfl) rfl
  | passes _ _ _ _ stage | inserts _ _ _ _ stage | drains _ _ _ _ _ stage | yields _ _ _ _ stage
  | commits _ _ _ stage | records _ _ _ stage | retires _ _ _ stage | clears _ _ _ stage
  | forgets _ _ _ stage =>
    exact h.move fun _ => by rw [stage]; rfl
  | _ => exact h.move nofun

variable {u : τ}

lemma AuthStep.idle (step : AuthStep localNode work s s') (h : s'.tasks.stage u = .idle) :
    s.tasks.stage u = .idle := by
  cases step with
  | disconnects => exact h
  | _ => exact Section.of_move_of_not (P := (· = Stage.idle)) h nofun

variable {direction : DialDirection}

section

variable (step : AuthStep localNode work s s')
include step

lemma AuthStep.inserting {peer : NodeId} (hu : work u = .publish peer direction)
    (h : s'.tasks.stage u = .inserting) :
    s.tasks.stage u = .inserting ∨ s'.ledger.contains peer = false := by
  cases step with
  | disconnects => exact .inl h
  | passes t other _ task _ clear =>
    rcases Section.of_move (P := (· = Stage.inserting)) h with h | ⟨rfl, -⟩
    · exact .inl h
    · obtain ⟨rfl, -⟩ := Task.publish.inj (hu.symm.trans task)
      exact .inr clear
  | _ => exact .inl (Section.of_move_of_not (P := (· = Stage.inserting)) h nofun)

lemma AuthStep.recorded (hu : (work u).revokes = some subject)
    (h : (s'.tasks.stage u).recorded = true) :
    (s.tasks.stage u).recorded = true ∨ s'.ledger = s.ledger.add subject := by
  cases step with
  | disconnects => exact .inl h
  | records t other task =>
    rcases Section.of_move (P := (Stage.recorded · = true)) h with h | ⟨rfl, -⟩
    · exact .inl h
    · obtain rfl := Option.some.inj (hu.symm.trans task)
      exact .inr rfl
  | retires t _ _ stage | leaves t stage =>
    rcases Section.of_move (P := (Stage.recorded · = true)) h with h | ⟨rfl, -⟩
    · exact .inl h
    · exact .inl (by rw [stage]; rfl)
  | givesUp t _ _ task | returns t _ _ task | cleans t _ _ task | forgets t _ task =>
    rcases Section.of_move (P := (Stage.recorded · = true)) h with h | ⟨rfl, -⟩
    · exact .inl h
    · rw [task] at hu
      cases hu
  | _ => exact .inl (Section.of_move_of_not (P := (Stage.recorded · = true)) h nofun)

lemma AuthStep.retired (hu : (work u).revokes = some subject)
    (h : (s'.tasks.stage u).retired = true) :
    (s.tasks.stage u).retired = true ∨ s'.table = s.table.retireSession subject := by
  cases step with
  | disconnects => exact .inl h
  | retires t other task =>
    rcases Section.of_move (P := (Stage.retired · = true)) h with h | ⟨rfl, -⟩
    · exact .inl h
    · obtain rfl := Option.some.inj (hu.symm.trans task)
      exact .inr rfl
  | leaves t stage =>
    rcases Section.of_move (P := (Stage.retired · = true)) h with h | ⟨rfl, -⟩
    · exact .inl h
    · exact .inl (by rw [stage]; rfl)
  | givesUp t _ _ task | returns t _ _ task | cleans t _ _ task | forgets t _ task =>
    rcases Section.of_move (P := (Stage.retired · = true)) h with h | ⟨rfl, -⟩
    · exact .inl h
    · rw [task] at hu
      cases hu
  | _ => exact .inl (Section.of_move_of_not (P := (Stage.retired · = true)) h nofun)

lemma AuthStep.entries {subject : NodeId} (h : s.table.entries subject = none) :
    s'.table.entries subject = none ∨
      ∃ t direction, work t = .publish subject direction ∧ s.tasks.stage t = .inserting := by
  cases step with
  | inserts t peer direction task stage =>
    by_cases heq : subject = peer
    · subst heq
      exact .inr ⟨t, direction, task, stage⟩
    · exact .inl ((SessionTable.entries_insert_of_ne heq).trans h)
  | drains => exact .inl ((congrFun (SessionTable.entries_retire _) subject).trans h)
  | cleans => exact .inl (SessionTable.entries_cleanup_eq_none h)
  | disconnects | retires => exact .inl (SessionTable.entries_retireSession_eq_none h)
  | _ => exact .inl h

/-- What is in the ledger after a step: what was, what a revocation recorded inside the section,
without what a purge forgot. -/
theorem AuthStep.ledger : s'.ledger = s.ledger ∨
      (∃ t subject, (work t).revokes = some subject ∧ s.tasks.stage t = .recording ∧
        s'.ledger = s.ledger.add subject) ∨
      ∃ t subject, work t = .purge subject ∧ s.tasks.stage t = .forgetting ∧
        s'.ledger = forget s.ledger subject := by
  cases step with
  | records t subject task stage => exact .inr (.inl ⟨t, subject, task, stage, rfl⟩)
  | forgets t subject task stage => exact .inr (.inr ⟨t, subject, task, stage, rfl⟩)
  | _ => exact .inl rfl

/-! ## Runs -/

def AuthState.Unpurged (s : AuthState τ) (work : τ → Task) (subject : NodeId) : Prop :=
  ∀ t, work t = .purge subject → s.tasks.stage t = .idle

structure Sequenced (work : τ → Task) (s : AuthState τ) : Prop where
  exclusive : s.tasks.Exclusive Stage.inside
  clear : ∀ t peer direction, work t = .publish peer direction → s.tasks.stage t = .inserting →
    s.ledger.contains peer = false
  recorded : ∀ t subject, s.Unpurged work subject → (work t).revokes = some subject →
    (s.tasks.stage t).recorded = true → s.ledger.contains subject = true
  retired : ∀ t subject, s.Unpurged work subject → (work t).revokes = some subject →
    (s.tasks.stage t).retired = true → s.table.entries subject = none

lemma AuthStep.unpurged (h : s'.Unpurged work subject) : s.Unpurged work subject :=
  fun t ht => step.idle (h t ht)

lemma AuthStep.keeps_recorded (unpurged : s.Unpurged work subject)
    (hrecorded : s.ledger.contains subject = true) : s'.ledger.contains subject = true := by
  rcases step.ledger with heq | ⟨_, other, -, -, heq⟩ | ⟨u, other, hu, hstage, heq⟩
  · rw [heq]
    exact hrecorded
  · rw [heq]
    exact contains_add (.inr hrecorded)
  · have hne : subject ≠ other := by
      rintro rfl
      rw [unpurged u hu] at hstage
      cases hstage
    rw [heq]
    exact contains_forget_of_ne hne hrecorded

end

omit [DecidableEq τ] in
lemma AuthState.Initial.sequenced (h : s.Initial) : Sequenced work s where
  exclusive := fun t ht => by rw [h.stage t] at ht; cases ht
  clear := fun t _ _ _ ht => by rw [h.stage t] at ht; cases ht
  recorded := fun t _ _ _ ht => by rw [h.stage t] at ht; cases ht
  retired := fun t _ _ _ ht => by rw [h.stage t] at ht; cases ht

lemma Sequenced.clear_step (h : Sequenced work s) (step : AuthStep localNode work s s') {t : τ}
    {peer : NodeId} {direction : DialDirection} (task : work t = .publish peer direction)
    (stage : s.tasks.stage t = .inserting) : s'.ledger.contains peer = false := by
  have hclear := h.clear t peer direction task stage
  rcases step.ledger with heq | ⟨u, subject, hu, hstage, -⟩ | ⟨u, subject, -, hstage, heq⟩
  · rw [heq]
    exact hclear
  · -- the recording task would be inside the section together with the publication
    have hin : t = u := h.exclusive.eq (by rw [stage]; rfl) (by rw [hstage]; rfl)
    rw [← hin, stage] at hstage
    cases hstage
  · rw [heq]
    exact contains_forget_eq_false hclear

lemma Sequenced.entries_step (h : Sequenced work s) (step : AuthStep localNode work s s') {t : τ}
    (unpurged : s.Unpurged work subject) (task : (work t).revokes = some subject)
    (stage : (s.tasks.stage t).retired = true) : s'.table.entries subject = none := by
  rcases step.entries (h.retired t subject unpurged task stage) with
    hnone | ⟨u, direction, hu, hinserting⟩
  · exact hnone
  · have hclear := h.clear u subject direction hu hinserting
    rw [h.recorded t subject unpurged task (Stage.recorded_of_retired stage)] at hclear
    cases hclear

lemma Sequenced.step (h : Sequenced work s) (step : AuthStep localNode work s s') :
    Sequenced work s' where
  exclusive := step.exclusive h.exclusive
  clear := by
    intro t peer direction task stage
    rcases step.inserting task stage with hbefore | hclear
    · exact h.clear_step step task hbefore
    · exact hclear
  recorded := by
    intro t subject unpurged task stage
    have hunpurged := step.unpurged unpurged
    rcases step.recorded task stage with hbefore | hadd
    · exact step.keeps_recorded hunpurged (h.recorded t subject hunpurged task hbefore)
    · rw [hadd]
      exact contains_add (.inl rfl)
  retired := by
    intro t subject unpurged task stage
    rcases step.retired task stage with hbefore | hretire
    · exact h.entries_step step (step.unpurged unpurged) task hbefore
    · rw [hretire, SessionTable.entries_retireSession]
      exact Function.update_self _ _ _

lemma AuthReachable.sequenced (h : AuthReachable localNode work s) : Sequenced work s := by
  induction h with
  | start s initial => exact initial.sequenced
  | step s s' _ next ih => exact ih.step next

/-- Once the section of a revocation ended, and while no purge of its subject began, the subject
has no session and no task gives it one, whenever that task was admitted. -/
theorem revoked_never_published (reached : AuthReachable localNode work s) (t : τ)
    (subject : NodeId) (revokes : (work t).revokes = some subject)
    (ended : s.tasks.stage t = .done) (unpurged : s.Unpurged work subject) :
    ¬ s.table.Live subject ∧
      (∀ k direction, work k = .publish subject direction → s.tasks.stage k ≠ .inserting) ∧
      ∀ s', AuthStep localNode work s s' → s'.table.entries subject = none := by
  have h := reached.sequenced
  have hretired : (s.tasks.stage t).retired = true := by
    rw [ended]
    rfl
  refine ⟨?_, ?_, ?_⟩
  · rintro ⟨entry, hentry, -⟩
    rw [h.retired t subject unpurged revokes hretired] at hentry
    cases hentry
  · intro k direction task stage
    have hclear := h.clear k subject direction task stage
    rw [h.recorded t subject unpurged revokes (Stage.recorded_of_retired hretired)] at hclear
    cases hclear
  · intro s' step
    exact h.entries_step step unpurged revokes hretired

end Effects

def sampleWork : Fin 3 → Task
  | 0 => .publish secondNode .outgoing
  | 1 => .publish secondNode .incoming
  | 2 => .revoke secondNode

def sampleStart : AuthState (Fin 3) where
  tasks := ⟨none, fun _ => .idle⟩
  table := ⟨fun _ => none, fun _ => true⟩
  ledger := OrdMap.empty
  durable := OrdMap.empty

/-- One session is published and one admitted before the peer is revoked. -/
theorem sample_revoked_never_published :
    ∃ s, AuthReachable firstNode sampleWork s ∧ s.tasks.stage 1 = .waiting ∧
      s.tasks.stage 2 = .done ∧ s.Unpurged sampleWork secondNode ∧ ¬ s.table.Live secondNode ∧
      (∀ k direction, sampleWork k = .publish secondNode direction →
        s.tasks.stage k ≠ .inserting) ∧
      ∀ s', AuthStep firstNode sampleWork s s' → s'.table.entries secondNode = none := by
  have h0 : AuthReachable firstNode sampleWork sampleStart :=
    .start _ ⟨rfl, fun _ => rfl, fun _ => rfl, fun _ => rfl, rfl⟩
  have h1 := h0.step _ _ (.admits 0 secondNode .outgoing rfl rfl (by decide +kernel))
  have h2 := h1.step _ _ (.admits 1 secondNode .incoming rfl rfl (by decide +kernel))
  have h3 := h2.step _ _ (.arrives 0 secondNode .outgoing rfl rfl rfl)
  have h4 := h3.step _ _ (.passes 0 secondNode .outgoing rfl rfl (by decide +kernel))
  have h5 := h4.step _ _ (.inserts 0 secondNode .outgoing rfl rfl rfl)
  have h6 := h5.step _ _ (.drains 0 secondNode .outgoing none rfl rfl)
  have h7 := h6.step _ _ (.serves 0 secondNode .outgoing rfl rfl)
  have h8 := h7.step _ _ (.orders 2 secondNode rfl rfl rfl)
  have h9 := h8.step _ _ (.commits 2 secondNode rfl rfl)
  have h10 := h9.step _ _ (.records 2 secondNode rfl rfl)
  have h11 := h10.step _ _ (.retires 2 secondNode rfl rfl)
  have h12 := h11.step _ _ (.leaves 2 rfl)
  have unpurged : ∀ t, sampleWork t ≠ .purge secondNode := by
    intro t
    fin_cases t <;> exact nofun
  have hsafe := revoked_never_published h12 2 secondNode rfl rfl fun t ht => absurd ht (unpurged t)
  exact ⟨_, h12, rfl, rfl, fun t ht => absurd ht (unpurged t), hsafe⟩

end Radiata.Session
