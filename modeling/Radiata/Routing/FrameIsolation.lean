import Radiata.Routing.SharedTrace

/-!
# Frames of other sessions

The read loops of all sessions share one forwarder.  An acknowledgement steers a hop only from
the session the hop was last dispatched to, and is dropped from any other.  A chunk or an end is
looked up by its trace alone: from a session that does not feed the hop, a chunk is relayed on it
and an end removes it.

The streams a session admitted are kept by its own read loop, out of reach of the others.
-/

namespace Radiata.Routing

open Lib Packet
open Session (ChunkFrame EndFrame EndReason AckFrame AckStatus)

variable {cfg : ForwardConfig} {n : Forwarder} {action : Action}

/-- The session at which the action brings a frame or a close. -/
def Action.reader? : Action → Option SessionIdentity
  | .openArrives s _ _ _ _ | .chunkArrives s _ | .endArrives s _ | .ackArrives s _ | .closes s =>
    some s
  | _ => none

/-- The open was found to have a place in the table and has not taken it yet. -/
def Task.awaitsPlace : Task → Bool
  | .openLookup _ | .openContains _ _ | .openReserve _ _ | .openSend _ _ | .openRegister _ _ => true
  | _ => false

namespace Forwarder

/-- Session `s` reads an acknowledgement of a hop that is not dispatched to `s`. -/
def Foreign (n : Forwarder) (s : SessionIdentity) (ack : AckFrame) : Prop :=
  ∃ hop, n.hops.get? ack.traceId = some hop ∧ hop.downstreamAcks ≠ s

/-- Nothing was queued, and no hop and no pending admission changed. -/
structure Undisturbed (n n' : Forwarder) : Prop where
  hops : n'.hops = n.hops
  pending : n'.pending = n.pending
  log : n'.log = n.log

/-- The actions interleave the handler of an acknowledgement that arrives at `s` with any steps of
the other handlers, and it stays foreign meanwhile. -/
structure Interleaves (cfg : ForwardConfig) (n : Forwarder) (s : SessionIdentity) (ack : AckFrame)
    (actions : List Action) : Prop where
  own : ∀ action ∈ actions, action.reader? ≠ some s
  foreign : EveryStep (step cfg) (fun n _ => n.Foreign s ack) (n.step cfg (.ackArrives s ack))
    actions

/-- No step of the session's handler disturbs anything. -/
def Harmless (cfg : ForwardConfig) (s : SessionIdentity) (n : Forwarder) (actions : List Action) :
    Prop :=
  EveryStep (step cfg) (fun n action => (∃ c, action = .acts (.reader s) c) →
    n.Undisturbed (n.step cfg action)) n actions

def Isolated (cfg : ForwardConfig) (n : Forwarder) (s : SessionIdentity) (ack : AckFrame)
    (actions : List Action) : Prop :=
  n.Undisturbed (n.step cfg (.ackArrives s ack)) ∧
    Harmless cfg s (n.step cfg (.ackArrives s ack)) actions

variable {s : SessionIdentity} {task : Task} {owner : Owner} {c : Choice}

lemma Undisturbed.refl (n : Forwarder) : n.Undisturbed n := ⟨rfl, rfl, rfl⟩

lemma Undisturbed.setTask (n : Forwarder) (owner : Owner) (next : Option Task) :
    n.Undisturbed (n.setTask owner next) := ⟨rfl, rfl, rfl⟩

lemma tasks_setTask (n : Forwarder) (owner : Owner) (next : Option Task) :
    (n.setTask owner next).tasks owner = next := Function.update_self ..

lemma step_acts (h : n.tasks owner = some task) (c : Choice) :
    n.step cfg (.acts owner c) = advance owner (n.act cfg c task) := by
  simp only [step, h]

/-! ## What the handlers are at -/

lemma tasks_sendAck (n : Forwarder) (c : Choice) (target : SessionIdentity) (frame : AckFrame) :
    (n.sendAck c target frame).tasks = n.tasks := by
  unfold sendAck
  split <;> rfl

lemma tasks_refuse (n : Forwarder) (c : Choice) (s : SessionIdentity) (trace : TraceId)
    (reason : Refusal) : (n.refuse c s trace reason).tasks = n.tasks :=
  tasks_sendAck (n.record _) c s _

lemma tasks_take (n : Forwarder) (worker : SessionIdentity) (trace : TraceId) :
    (n.take worker trace).tasks = n.tasks := by
  unfold take
  split <;> rfl

lemma tasks_markAdmitted (n : Forwarder) (trace : TraceId) :
    (n.markAdmitted trace).tasks = n.tasks := by
  unfold markAdmitted
  split
  · rfl
  · split <;> rfl

lemma tasks_reserve {n' : Forwarder} {down upstream : SessionIdentity} {trace : TraceId}
    (h : n.reserve cfg down trace upstream = .ok n') : n'.tasks = n.tasks := by
  unfold reserve at h
  split_ifs at h
  cases h
  rfl

lemma tasks_act (n : Forwarder) (cfg : ForwardConfig) (c : Choice) (task : Task) :
    (n.act cfg c task).1.tasks = n.tasks := by
  cases task <;> simp only [act, actOpen, actBody, actClose, actAck, actFail]
  case openReserve | failReserve =>
    split
    · simp [tasks_refuse]
    · rename_i hreserve
      exact tasks_reserve hreserve
  all_goals
    repeat' split
    all_goals
      simp [record, setLock, setHop, withdraw, sendStatus, tasks_sendAck, tasks_refuse, tasks_take,
        tasks_markAdmitted]

lemma tasks_setTask_of_ne {other : Owner} (n : Forwarder) (next : Option Task)
    (h : owner ≠ other) : (n.setTask other next).tasks owner = n.tasks owner :=
  Function.update_of_ne h ..

/-- What a handler is at after an action that is not a step of it: the same, nothing if it was
cancelled, or the first task of a frame, a close or an expiry that it was free to take. -/
def Follows (n : Forwarder) (action : Action) (owner : Owner) (after : Option Task) : Prop :=
  after = n.tasks owner ∨ action = .cancels owner ∧ after = none ∨
    n.tasks owner = none ∧ (∀ s, owner = .reader s → action.reader? = some s) ∧
      ∀ next, after = some next → next.awaitsPlace = false

lemma tasks_step (cfg : ForwardConfig) (hacts : ∀ c, action ≠ .acts owner c) :
    n.Follows action owner ((n.step cfg action).tasks owner) := by
  have hset {m : Forwarder} {other : Owner} {next : Option Task} (hm : m.tasks = n.tasks)
      (hnone : n.tasks other = none) (hreader : ∀ s, other = .reader s → action.reader? = some s)
      (hnext : ∀ t, next = some t → t.awaitsPlace = false) :
      n.Follows action owner ((m.setTask other next).tasks owner) := by
    by_cases howner : owner = other
    · subst howner
      rw [tasks_setTask]
      exact .inr (.inr ⟨hnone, hreader, hnext⟩)
    · rw [tasks_setTask_of_ne _ _ howner, hm]
      exact .inl rfl
  have hbegins {s : SessionIdentity} {next : Option Task} (hreader : action.reader? = some s)
      (hnext : ∀ t, next = some t → t.awaitsPlace = false) :
      n.Follows action owner ((n.begins s next).tasks owner) := by
    unfold begins
    split
    · exact .inl rfl
    · exact hset rfl ‹_› (by rintro _ ⟨⟩; exact hreader) hnext
  cases action with
  | connect => exact .inl rfl
  | openArrives s frame plan peers choice =>
    simp only [step, openArrives]
    split
    · exact .inl rfl
    · split
      · exact hset rfl ‹_› (by rintro _ ⟨⟩; rfl) (by rintro _ ⟨⟩; rfl)
      · rw [tasks_refuse]
        exact .inl rfl
  | chunkArrives s frame | endArrives s frame =>
    simp only [step]
    refine hbegins rfl ?_
    split_ifs
    · rintro _ ⟨⟩
      rfl
    · rintro _ ⟨⟩
  | ackArrives s | closes s =>
    simp only [step]
    exact hbegins rfl (by rintro _ ⟨⟩; rfl)
  | expires timer s trace =>
    simp only [step]
    split
    · exact hset rfl ‹_› (by rintro _ ⟨⟩) (by rintro _ ⟨⟩; rfl)
    · exact .inl rfl
  | acts other choice =>
    have hne : owner ≠ other := fun howner => hacts choice (howner ▸ rfl)
    simp only [step]
    split
    · exact .inl rfl
    · rw [advance, tasks_setTask_of_ne _ _ hne, tasks_act]
      exact .inl rfl
  | cancels other =>
    have hcleared (m : Forwarder) (hm : m.tasks = n.tasks) :
        n.Follows (.cancels other) owner ((m.setTask other none).tasks owner) := by
      by_cases howner : owner = other
      · subst howner
        exact .inr (.inl ⟨rfl, tasks_setTask ..⟩)
      · rw [tasks_setTask_of_ne _ _ howner, hm]
        exact .inl rfl
    simp only [step]
    split
    · exact .inl rfl
    · split
      · exact hcleared n rfl
      · exact hcleared (n.setLock _ false) rfl

/-- The handler of a foreign acknowledgement has not steered yet, or is done. -/
lemma isolated_of_ack {ack : AckFrame} {actions : List Action}
    (htask : n.tasks (.reader s) = none ∨ n.tasks (.reader s) = some (.ackSteer s ack))
    (hown : ∀ action ∈ actions, action.reader? ≠ some s)
    (hforeign : EveryStep (step cfg) (fun n _ => n.Foreign s ack) n actions) :
    Harmless cfg s n actions := by
  induction actions generalizing n with
  | nil => exact everyStep_nil
  | cons action actions ih =>
    obtain ⟨⟨hop, hget, hserves⟩, hrest⟩ := everyStep_cons.mp hforeign
    obtain ⟨howned, hothers⟩ := List.forall_mem_cons.mp hown
    by_cases hacts : ∃ c, action = .acts (.reader s) c
    · obtain ⟨c, rfl⟩ := hacts
      have hstep : n.step cfg (.acts (.reader s) c) = n ∨
          n.step cfg (.acts (.reader s) c) = n.setTask (.reader s) none := by
        rcases htask with hnone | hsteer
        · exact .inl (by simp only [step, hnone])
        · refine .inr ?_
          rw [step_acts hsteer]
          simp [act, actAck, ackFromCurrentDownstream, hget, hserves.symm, advance]
      have hundisturbed : n.Undisturbed (n.step cfg (.acts (.reader s) c)) := by
        rcases hstep with hstep | hstep <;> rw [hstep]
        · exact .refl n
        · exact .setTask ..
      refine everyStep_cons.mpr ⟨fun _ => hundisturbed, ih ?_ hothers hrest⟩
      rcases hstep with hstep | hstep <;> rw [hstep]
      · exact htask
      · exact .inl (tasks_setTask ..)
    · refine everyStep_cons.mpr ⟨fun h => absurd h hacts, ih ?_ hothers hrest⟩
      rcases tasks_step cfg fun c heq => hacts ⟨c, heq⟩ with hsame | ⟨-, hnone⟩ | ⟨-, hreader, -⟩
      · rwa [hsame]
      · exact .inl hnone
      · exact absurd (hreader s rfl) howned

end Forwarder

open Forwarder

def accepting : Choice := ⟨true, true, .failed⟩

def bystander : SessionIdentity := ⟨sampleNode 3, 2⟩

namespace Forwarder

variable {c : Choice} {trace : TraceId} {owner : Owner} {task : Task} {owners : Finset Owner}

def Registers (n : Forwarder) : Action → Prop
  | .acts owner _ => ∃ job down, n.tasks owner = some (.openRegister job down) ∧
      n.hops.get? job.trace = none
  | _ => False

def Within (cfg : ForwardConfig) (n : Forwarder) : Prop :=
  n.hops.entries.length ≤ cfg.forwardingCapacity

/-- These handlers all have an open that awaits its place. -/
def InFlight (n : Forwarder) (owners : Finset Owner) : Prop :=
  ∀ owner ∈ owners, ∃ task, n.tasks owner = some task ∧ task.awaitsPlace = true

/-- Whether the action is an open's check of the table. -/
def checksCapacity (n : Forwarder) : Action → Bool
  | .acts owner _ =>
    match n.tasks owner with
    | some (.openCapacity _) => true
    | _ => false
  | _ => false

/-- Where an open finds the table below its capacity, it is still below with the opens in flight. -/
def RoomAhead (cfg : ForwardConfig) (n : Forwarder) (action : Action) : Prop :=
  n.checksCapacity action = true → n.hops.entries.length < cfg.forwardingCapacity →
    ∀ owners, n.InFlight owners → n.hops.entries.length + owners.card < cfg.forwardingCapacity

/-- The opens in flight have their places in the table. -/
def Reserved (cfg : ForwardConfig) (n : Forwarder) : Prop :=
  ∀ owners, n.InFlight owners → n.hops.entries.length + owners.card ≤ cfg.forwardingCapacity

@[simp] lemma hops_refuse {s : SessionIdentity} {reason : Refusal} :
    (n.refuse c s trace reason).hops = n.hops :=
  (Quiet.sendAck (n.record _) c s _).hops

lemma length_take_le {worker : SessionIdentity} :
    (n.take worker trace).hops.entries.length ≤ n.hops.entries.length := by
  unfold take
  split
  · exact le_rfl
  · exact OrdMap.length_erase_le

lemma length_markAdmitted :
    (n.markAdmitted trace).hops.entries.length = n.hops.entries.length := by
  unfold markAdmitted
  split
  · rfl
  · split
    · exact OrdMap.length_insert_of_get? ‹_›
    · rfl

lemma length_act_le
    (h : ∀ job down, task = .openRegister job down → n.hops.get? job.trace ≠ none) :
    (n.act cfg c task).1.hops.entries.length ≤ n.hops.entries.length := by
  cases task <;> simp only [act, actOpen, actBody, actClose, actAck, actFail]
  case openRegister job down => simp [Option.isSome_iff_ne_none, h job down rfl]
  all_goals
    repeat' split
    -- what is left takes a hop, changes the hop it found, or leaves the table
    all_goals first
      | rw [(Quiet.reserve ‹_›).hops]
      | exact (OrdMap.length_insert_of_get? ‹_›).le
      | simp [record, setLock, withdraw, sendStatus, (Quiet.sendAck _ _ _ _).hops, length_take_le,
          length_markAdmitted]

lemma length_step_le (cfg : ForwardConfig) (h : ¬ n.Registers action) :
    (n.step cfg action).hops.entries.length ≤ n.hops.entries.length := by
  cases action with
  | acts owner choice =>
    simp only [step]
    split
    · exact le_rfl
    · next task htask =>
      refine length_act_le fun job down hregister hunused => h ⟨job, down, ?_, hunused⟩
      rw [htask, hregister]
  | _ =>
    simp only [step, begins, openArrives]
    repeat' split
    all_goals simp [setTask, withdraw, setLock]

lemma hops_register (cfg : ForwardConfig) (c : Choice) {owner : Owner} {job : OpenJob}
    {down : SessionIdentity} (htask : n.tasks owner = some (.openRegister job down))
    (h : n.hops.get? job.trace = none) :
    ∃ hop, (n.step cfg (.acts owner c)).hops = n.hops.insert job.trace hop := by
  simp only [step, htask, act, actOpen, h]
  exact ⟨_, rfl⟩

lemma length_step_of_registers (cfg : ForwardConfig) (h : n.Registers action) :
    (n.step cfg action).hops.entries.length = n.hops.entries.length + 1 := by
  cases action with
  | acts owner choice =>
    obtain ⟨job, down, htask, hunused⟩ := h
    obtain ⟨hop, hhops⟩ := hops_register cfg choice htask hunused
    have herase : n.hops.erase job.trace = n.hops := OrdMap.ext_get? fun trace => by
      by_cases htrace : trace = job.trace
      · rw [htrace, OrdMap.get?_erase_self, hunused]
      · exact OrdMap.get?_erase_of_ne htrace
    rw [hhops, OrdMap.length_insert, herase]
  | _ => cases h

/-- An open that is in flight after a step was in flight, or passed the check in it. -/
lemma awaitsPlace_act {next : Task} (hnext : (n.act cfg c task).2 = some next)
    (hawaits : next.awaitsPlace = true) : task.awaitsPlace = true ∨
      (∃ job, task = .openCapacity job) ∧ n.hops.entries.length < cfg.forwardingCapacity := by
  revert hnext hawaits
  cases task <;> simp only [act, actOpen, actBody, actClose, actAck, actFail]
  case openCapacity job =>
    split
    · rintro ⟨⟩
    · exact fun _ _ => .inr ⟨⟨job, rfl⟩, not_le.mp ‹_›⟩
  case openLookup | openContains | openReserve | openSend | openRegister =>
    exact fun _ _ => .inl rfl
  case chunkSnapshot | endSnapshot =>
    intro hnext hawaits
    obtain ⟨hop, -, rfl⟩ := Option.map_eq_some_iff.mp hnext
    exact absurd hawaits Bool.false_ne_true
  all_goals
    repeat' split
    all_goals rintro ⟨⟩ ⟨⟩

lemma awaits_of_step (hacts : ∀ c, action ≠ .acts owner c)
    (htask : (n.step cfg action).tasks owner = some task) (hawaits : task.awaitsPlace = true) :
    n.tasks owner = some task := by
  rcases tasks_step cfg hacts with hsame | ⟨-, hnone⟩ | ⟨-, -, hnew⟩
  · rw [← hsame, htask]
  · cases hnone.symm.trans htask
  · cases hawaits.symm.trans (hnew task htask)

/-- **A step keeps the places of the opens in flight**, if the check it makes counts them. -/
lemma Reserved.step (h : n.Reserved cfg) (hroom : n.RoomAhead cfg action) :
    (n.step cfg action).Reserved cfg := by
  intro owners hflight
  -- those that do not move now were in flight before
  have hbefore {others : Finset Owner} (hsub : others ⊆ owners)
      (hstill : ∀ owner ∈ others, ∀ c, action ≠ .acts owner c) : n.InFlight others := by
    intro owner howner
    obtain ⟨task, htask, hawaits⟩ := hflight owner (hsub howner)
    exact ⟨task, awaits_of_step (hstill owner howner) htask hawaits, hawaits⟩
  by_cases hmoves : ∃ owner c, action = .acts owner c
  swap
  · have hregisters : ¬ n.Registers action := by
      cases action with
      | acts owner c => exact absurd ⟨owner, c, rfl⟩ hmoves
      | _ => exact id
    have hstill := hbefore subset_rfl fun owner _ c heq => hmoves ⟨owner, c, heq⟩
    exact (Nat.add_le_add_right (length_step_le cfg hregisters) _).trans (h owners hstill)
  obtain ⟨mover, c, rfl⟩ := hmoves
  have hothers : n.InFlight (owners.erase mover) := by
    refine hbefore (Finset.erase_subset _ _) fun owner howner c heq => ?_
    cases heq
    exact Finset.notMem_erase _ _ howner
  have hinsert (hmoved : ∃ task, n.tasks mover = some task ∧ task.awaitsPlace = true) :
      n.InFlight (insert mover (owners.erase mover)) := by
    intro owner howner
    rcases Finset.mem_insert.mp howner with rfl | howner
    · exact hmoved
    · exact hothers owner howner
  by_cases hregisters : n.Registers (.acts mover c)
  · -- the open that registers leaves the flight and takes its place
    have hlength := length_step_of_registers cfg hregisters
    obtain ⟨job, down, htask, hunused⟩ := hregisters
    have hdone : (n.step cfg (.acts mover c)).tasks mover = none := by
      rw [step_acts htask]
      simp [act, actOpen, hunused, advance, tasks_setTask]
    have hout : mover ∉ owners := by
      intro hin
      obtain ⟨task, hmoved, -⟩ := hflight mover hin
      cases hdone.symm.trans hmoved
    have hplaces := h _ (hinsert ⟨_, htask, rfl⟩)
    rw [Finset.card_insert_of_notMem (Finset.notMem_erase _ _), Finset.erase_eq_of_notMem hout]
      at hplaces
    omega
  · have hlength := length_step_le cfg hregisters
    by_cases hin : mover ∈ owners
    · obtain ⟨next, hnext, hawaits⟩ := hflight mover hin
      cases htask : n.tasks mover with
      | none =>
        simp only [step, htask] at hnext
        cases hnext
      | some task =>
        rw [step_acts htask, advance, tasks_setTask] at hnext
        rcases awaitsPlace_act hnext hawaits with hwaited | ⟨⟨job, rfl⟩, hfree⟩
        · have hplaces := h _ (hinsert ⟨task, htask, hwaited⟩)
          rw [Finset.insert_erase hin] at hplaces
          omega
        · have hplaces := hroom (by simp only [checksCapacity, htask]) hfree _ hothers
          rw [Finset.card_erase_of_mem hin] at hplaces
          have hcard := Finset.card_pos.mpr ⟨mover, hin⟩
          omega
    · rw [Finset.erase_eq_of_notMem hin] at hothers
      have hplaces := h owners hothers
      omega

end Forwarder

/-- **When the forwarding table keeps its capacity**: along a run it does if every open that finds
the table below its capacity finds it below with the opens in flight counted as well.  A hop is
never registered over another. -/
theorem within_capacity_of_roomAhead (cfg : ForwardConfig) (actions : List Action)
    (h : EveryStep (step cfg) (RoomAhead cfg) .start actions) :
    (∀ before after, actions = before ++ after → (Forwarder.start.run cfg before).Within cfg) ∧
    ∀ (n : Forwarder) owner job down c, n.tasks owner = some (.openRegister job down) →
      ∀ trace hop, n.hops.get? trace = some hop →
        (n.step cfg (.acts owner c)).hops.get? trace = some hop := by
  constructor
  · intro before after hcut
    have hstart : Forwarder.start.Reserved cfg := by
      intro owners hflight
      have hempty : owners = ∅ := Finset.eq_empty_of_forall_notMem fun owner howner => by
        obtain ⟨_, htask, -⟩ := hflight owner howner
        cases htask
      rw [hempty]
      exact Nat.zero_le _
    have hreserved : Reserved cfg (Forwarder.start.run cfg before) := invariant_of_run hstart
      (fun before action after hsplit hinv => hinv.step (h before action after hsplit)) before after
      hcut
    exact hreserved ∅ fun _ howner => absurd howner (Finset.notMem_empty _)
  · intro n owner job down c htask trace hop hget
    cases hused : n.hops.get? job.trace with
    | some => simpa [step, htask, act, actOpen, hused, advance, setTask] using hget
    | none =>
      obtain ⟨new, hhops⟩ := hops_register cfg c htask hused
      have hne : trace ≠ job.trace := by
        rintro rfl
        cases hused.symm.trans hget
      rw [hhops, OrdMap.get?_insert_of_ne hne, hget]

/-- An open that is checked while no other is in flight keeps a table for one hop. -/
theorem single_open_within :
    (Forwarder.start.run ⟨sampleNode 1, 1, 8⟩ (.connect (sampleNode 5) (some responder) ::
        sendsOpen requester sampleRequest)).hops.entries.length = 1 ∧
      (Forwarder.start.run ⟨sampleNode 1, 1, 8⟩ (.connect (sampleNode 5) (some responder) ::
        sendsOpen requester sampleRequest)).Within ⟨sampleNode 1, 1, 8⟩ := by
  have hunchecked (n : Forwarder) (action : Action) (h : n.checksCapacity action = false) :
      n.RoomAhead ⟨sampleNode 1, 1, 8⟩ action := fun hchecks => by cases h.symm.trans hchecks
  have hroom : EveryStep (step ⟨sampleNode 1, 1, 8⟩) (RoomAhead ⟨sampleNode 1, 1, 8⟩) .start
      (.connect (sampleNode 5) (some responder) :: sendsOpen requester sampleRequest) := by
    refine everyStep_cons.mpr ⟨hunchecked _ _ rfl, everyStep_cons.mpr ⟨hunchecked _ _ rfl,
      everyStep_cons.mpr ⟨fun _ _ owners hflight => ?_, ?_⟩⟩⟩
    · -- the session's open is only now checked, and there is no other
      have hempty : owners = ∅ := Finset.eq_empty_of_forall_notMem fun owner howner => by
        obtain ⟨task, htask, hawaits⟩ := hflight owner howner
        cases awaits_of_step (by rintro _ ⟨⟩) htask hawaits
      rw [hempty]
      decide +kernel
    · refine EveryStep.mono (P := fun n action => n.checksCapacity action = false) ?_ hunchecked
      decide +kernel
  exact ⟨by decide +kernel,
    (within_capacity_of_roomAhead _ _ hroom).1 _ [] (List.append_nil _).symm⟩

/-- Two opens that are both checked before the first registers give a table for one hop two. -/
theorem checked_together_exceed :
    (Forwarder.start.run ⟨sampleNode 1, 1, 8⟩
      (.connect (sampleNode 5) (some responder) ::
        .openArrives requester sampleRequest (fun _ => .ok []) [] accepting ::
        .openArrives bystander (sampleFrame
          ⟨⟨"trace-000000000000000000001".toList, by decide +kernel⟩, sampleNode 3, sampleNode 5,
            ⟨sampleNode 3, [], 6, [sampleNode 5]⟩⟩) (fun _ => .ok []) [] accepting ::
        (reads requester 1 ++ reads bystander 6 ++ reads requester 5))).hops.entries.length
      = 2 := by
  decide +kernel

end Radiata.Routing
