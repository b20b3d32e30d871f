import Radiata.Lib.Runs
import Radiata.Routing.Forward
import Radiata.Routing.Walk

/-!
# Two directions of one trace

A reply reuses the trace of its request, so where both pass a relay their frames meet in one
entry of its table.  The relay looks an entry up by trace alone: the open of the reply is refused
as a duplicate while the request is under way, its chunks follow the hop of the request, and its
end removes that hop.

Where a handler finds under its trace no hop, or a hop of the session it works for, and the next
hop of an open owes no acknowledgement for its trace, the directions are apart: no first open is
refused as a duplicate, chunks and ends go only where an open of their own session went, and a
session removes only hops it feeds.
-/

namespace Radiata.Routing

open Lib Packet
open Session (ChunkFrame EndFrame EndReason AckFrame AckStatus)
open List (mem_cons_self suffix_rfl)
open Forwarder (act actAck actBody actClose actFail actOpen begins take)
open OrdMap (get?_erase_of_ne get?_insert_of_ne get?_insert_self)

/-! ## What the log justifies -/

def Frame.trace : Frame → TraceId
  | .opening frame => frame.traceId
  | .chunk frame => frame.traceId
  | .ending frame => frame.traceId
  | .ack frame => frame.traceId

def Opened (log : List Event) (feeder : SessionIdentity) (trace : TraceId)
    (target : SessionIdentity) : Prop :=
  ∃ frame : OpenFrame, frame.traceId = trace ∧ .opened feeder frame target ∈ log

variable {trace : TraceId}

lemma Opened.mono {log log' : List Event} {feeder target : SessionIdentity}
    (h : Opened log feeder trace target) (hlog : log ⊆ log') : Opened log' feeder trace target :=
  let ⟨frame, htrace, hmem⟩ := h
  ⟨frame, htrace, hlog hmem⟩

def Event.Justified (older : List Event) : Event → Prop
  | .relayed s frame target => Opened older s frame.trace target
  | .refused s trace reason =>
    reason ≠ .registered ∧ reason ≠ .pendingDuplicate ∧
      (reason = .duplicate → ∃ target, Opened older s trace target)
  | .removed worker _ feeder => feeder = worker
  | _ => True

def LogSound : List Event → Prop
  | [] => True
  | event :: older => event.Justified older ∧ LogSound older

lemma LogSound.justified {newer older : List Event} {event : Event}
    (h : LogSound (newer ++ event :: older)) : event.Justified older := by
  induction newer with
  | nil => exact h.1
  | cons _ newer ih => exact ih h.2

/-! ## What a step can do -/

variable {n n' n'' : Forwarder} {owner : Owner} {c : Choice} {cfg : ForwardConfig}

structure Quiet (n n' : Forwarder) : Prop where
  tasks : n'.tasks = n.tasks
  hops : n'.hops = n.hops
  log : n.log <:+ n'.log
  sound : LogSound n.log → LogSound n'.log

namespace Quiet

lemma refl (n : Forwarder) : Quiet n n := ⟨rfl, rfl, suffix_rfl, id⟩

lemma trans (h : Quiet n n') (h' : Quiet n' n'') : Quiet n n'' :=
  ⟨h'.tasks.trans h.tasks, h'.hops.trans h.hops, h.log.trans h'.log, h'.sound ∘ h.sound⟩

lemma record {event : Event} (h : event.Justified n.log) : Quiet n (n.record event) :=
  ⟨rfl, rfl, List.suffix_cons _ _, fun hlog => ⟨h, hlog⟩⟩

section

variable (n)

lemma withdraw (s : SessionIdentity) (trace : TraceId) :
    Quiet n (n.withdraw s trace) := ⟨rfl, rfl, suffix_rfl, id⟩

lemma setLock (lock : ℕ) (held : Bool) : Quiet n (n.setLock lock held) :=
  ⟨rfl, rfl, suffix_rfl, id⟩

lemma sendAck (c : Choice) (target : SessionIdentity) (frame : AckFrame) :
    Quiet n (n.sendAck c target frame) := by
  unfold Forwarder.sendAck
  split_ifs
  · exact record trivial
  · exact refl n

lemma sendStatus (c : Choice) (target : SessionIdentity) (trace : TraceId) (status : AckStatus) :
    Quiet n (n.sendStatus c target trace status) := sendAck n c target _

end

lemma refuse {s : SessionIdentity} {reason : Refusal}
    (h : (Event.refused s trace reason).Justified n.log) : Quiet n (n.refuse c s trace reason) :=
  (record h).trans (sendStatus _ c s trace _)

lemma reserve {s upstream : SessionIdentity} (h : n.reserve cfg s trace upstream = .ok n') :
    Quiet n n' := by
  unfold Forwarder.reserve at h
  split_ifs at h
  cases h
  exact ⟨rfl, rfl, suffix_rfl, id⟩

end Quiet

inductive HopsChange (n n' : Forwarder) (owner : Owner) : Prop where
  | same : n'.hops = n.hops → HopsChange n n' owner
  | update {trace : TraceId} {hop hop' : ForwardingHop} : n.hops.get? trace = some hop →
      hop'.upstreamSession = hop.upstreamSession → hop'.upstream = hop.upstream →
      Opened n'.log hop'.upstreamSession trace hop'.downstream →
      n'.hops = n.hops.insert trace hop' → HopsChange n n' owner
  | register {trace : TraceId} {hop : ForwardingHop} : n.hops.get? trace = none →
      owner = .reader hop.upstreamSession → hop.upstream = hop.upstreamSession →
      Opened n'.log hop.upstreamSession trace hop.downstream →
      n'.hops = n.hops.insert trace hop → HopsChange n n' owner
  | erase {trace : TraceId} {hop : ForwardingHop} : n.hops.get? trace = some hop →
      .removed hop.upstreamSession trace hop.upstreamSession :: n.log <:+ n'.log →
      n'.hops = n.hops.erase trace → HopsChange n n' owner

structure Effect (n n' : Forwarder) (owner : Owner) : Prop where
  tasks : n'.tasks = n.tasks
  log : n.log <:+ n'.log
  sound : LogSound n.log → LogSound n'.log
  hops : HopsChange n n' owner

lemma Quiet.effect (h : Quiet n n') : Effect n n' owner := ⟨h.tasks, h.log, h.sound, .same h.hops⟩

lemma Effect.quiet (h : Effect n n' owner) (hq : Quiet n' n'') : Effect n n'' owner := by
  refine ⟨hq.tasks.trans h.tasks, h.log.trans hq.log, hq.sound ∘ h.sound, ?_⟩
  cases h.hops with
  | same hhops => exact .same (hq.hops.trans hhops)
  | update hget hfeeder hup hopened hhops =>
    exact .update hget hfeeder hup (hopened.mono hq.log.subset) (hq.hops.trans hhops)
  | register hget howner hup hopened hhops =>
    exact .register hget howner hup (hopened.mono hq.log.subset) (hq.hops.trans hhops)
  | erase hget hremoved hhops =>
    exact .erase hget (hremoved.trans hq.log) (hq.hops.trans hhops)

lemma effect_setHop {hop hop' : ForwardingHop} (hget : n.hops.get? trace = some hop)
    (hfeeder : hop'.upstreamSession = hop.upstreamSession) (hup : hop'.upstream = hop.upstream)
    (hopened : Opened n.log hop'.upstreamSession trace hop'.downstream) :
    Effect n (n.setHop trace hop') owner :=
  ⟨rfl, suffix_rfl, id, .update hget hfeeder hup hopened rfl⟩

lemma effect_take {hop : ForwardingHop} {worker : SessionIdentity}
    (hget : n.hops.get? trace = some hop) (hworker : hop.upstreamSession = worker) :
    Effect n (n.take worker trace) owner := by
  have htake : n.take worker trace =
      { n with
        hops := n.hops.erase trace
        log := .removed worker trace hop.upstreamSession :: n.log } := by
    simp only [take, hget]
  rw [htake]
  refine ⟨rfl, List.suffix_cons _ _, fun hlog => ⟨hworker, hlog⟩, .erase hget ?_ rfl⟩
  rw [hworker]

/-! ## What a handler knows -/

/-- The trace whose entry decides what a handler does at this step, and the session it works
for. -/
def Task.worksFor : Task → Option (TraceId × SessionIdentity)
  | .openContains job _ | .openRegister job _ => some (job.trace, job.session)
  | .chunkSnapshot s frame | .chunkFail s frame _ => some (frame.traceId, s)
  | .endTake s frame _ => some (frame.traceId, s)
  | .closeTake s trace _ _ => some (trace, s)
  | .failExhausted search | .failRebind search _ => some (search.trace, search.upstream)
  | _ => none

def Task.reserves : Task → Option (SessionIdentity × TraceId)
  | .openReserve job down => some (down, job.trace)
  | _ => none

def Forwarder.Unfed (n : Forwarder) (s : SessionIdentity) (trace : TraceId) : Prop :=
  ∀ hop, n.hops.get? trace = some hop → hop.upstreamSession ≠ s

def Task.Sound (n : Forwarder) (owner : Owner) : Task → Prop
  | .openCapacity job | .openLookup job | .openContains job _ => owner = .reader job.session
  | .openReserve job _ | .openSend job _ => owner = .reader job.session ∧
      n.Unfed job.session job.trace
  | .openWithdraw _ _ reason => reason = .encoding ∨ reason = .dispatch
  | .openRegister job down =>
    owner = .reader job.session ∧ n.Unfed job.session job.trace ∧
      Opened n.log job.session job.trace down
  | .chunkLock s frame hop | .chunkContains s frame hop | .chunkSend s frame hop
  | .chunkFail s frame hop => Opened n.log s frame.traceId hop.downstream
  | .endSend s frame hop => Opened n.log s frame.traceId hop.downstream
  | .closeSend s trace hop _ => Opened n.log s trace hop.downstream
  | .failRebind search down => Opened n.log search.upstream search.trace down
  | _ => True

namespace Forwarder

/-- A handler finds no hop under its trace, or one of the session it works for; and an open finds
no acknowledgement owed for its trace. -/
def Owned (n : Forwarder) : Action → Prop
  | .acts owner _ =>
    ∀ task ∈ n.tasks owner,
      (∀ work ∈ task.worksFor, ∀ hop ∈ n.hops.get? work.1, hop.upstreamSession = work.2) ∧
        ∀ entry ∈ task.reserves, (n.pending entry.1).get? entry.2 = none
  | _ => True

instance (n : Forwarder) (action : Action) : Decidable (n.Owned action) :=
  match action with
  | .acts owner _ =>
    inferInstanceAs (Decidable (∀ task ∈ n.tasks owner,
      (∀ work ∈ task.worksFor, ∀ hop ∈ n.hops.get? work.1, hop.upstreamSession = work.2) ∧
        ∀ entry ∈ task.reserves, (n.pending entry.1).get? entry.2 = none))
  | .connect _ _ | .openArrives _ _ _ _ _ | .chunkArrives _ _ | .endArrives _ _
  | .ackArrives _ _ | .closes _ | .expires _ _ _ | .cancels _ => .isTrue trivial

structure Invariant (n : Forwarder) : Prop where
  hops : ∀ trace hop, n.hops.get? trace = some hop →
    hop.upstream = hop.upstreamSession ∧
      Opened n.log hop.upstreamSession trace hop.downstream
  tasks : ∀ owner task, n.tasks owner = some task → task.Sound n owner
  log : LogSound n.log

end Forwarder

lemma Effect.unfed {s : SessionIdentity} (heffect : Effect n n' owner)
    (howner : owner ≠ .reader s) (h : n.Unfed s trace) : n'.Unfed s trace := by
  intro hop' hget'
  cases heffect.hops with
  | same hhops =>
    rw [hhops] at hget'
    exact h hop' hget'
  | @update trace' hop new hget hfeeder hup hopened hhops =>
    rw [hhops] at hget'
    by_cases htrace : trace = trace'
    · subst htrace
      rw [get?_insert_self] at hget'
      cases hget'
      rw [hfeeder]
      exact h hop hget
    · rw [get?_insert_of_ne htrace] at hget'
      exact h hop' hget'
  | @register trace' hop hget hreader hup hopened hhops =>
    rw [hhops] at hget'
    by_cases htrace : trace = trace'
    · subst htrace
      rw [get?_insert_self] at hget'
      cases hget'
      rintro rfl
      exact howner hreader
    · rw [get?_insert_of_ne htrace] at hget'
      exact h hop' hget'
  | @erase trace' hop hget hremoved hhops =>
    rw [hhops] at hget'
    by_cases htrace : trace = trace'
    · rw [htrace, OrdMap.get?_erase_self] at hget'
      cases hget'
    · rw [get?_erase_of_ne htrace] at hget'
      exact h hop' hget'

variable {task : Task}

lemma Task.Sound.mono (h : task.Sound n owner) (hlog : n.log ⊆ n'.log)
    (hunfed : ∀ s trace, owner = .reader s → n.Unfed s trace → n'.Unfed s trace) :
    task.Sound n' owner := by
  cases task with
  | openCapacity job | openLookup job | openContains job down | openWithdraw job down reason =>
    exact h
  | openReserve job down | openSend job down => exact ⟨h.1, hunfed _ _ h.1 h.2⟩
  | openRegister job down => exact ⟨h.1, hunfed _ _ h.1 h.2.1, h.2.2.mono hlog⟩
  | chunkLock s frame hop | chunkContains s frame hop | chunkSend s frame hop
  | chunkFail s frame hop | endSend s frame hop | closeSend s trace hop remaining
  | failRebind search down => exact Opened.mono h hlog
  | _ => trivial

lemma Task.Sound.quiet (h : task.Sound n owner) (hq : Quiet n n') : task.Sound n' owner :=
  h.mono hq.log.subset fun _ _ _ hunfed hop hget => hunfed hop (hq.hops ▸ hget)

/-! ## One step of a handler -/

structure Good (n : Forwarder) (owner : Owner) (result : Forwarder × Option Task) : Prop where
  effect : Effect n result.1 owner
  next : ∀ task, result.2 = some task → task.Sound result.1 owner

lemma Effect.done (h : Effect n n' owner) : Good n owner (n', none) := by
  refine ⟨h, fun task hnext => ?_⟩
  cases hnext

lemma Quiet.done (h : Quiet n n') : Good n owner (n', none) := h.effect.done

lemma Effect.goesOn (h : Effect n n' owner) (hsound : task.Sound n' owner) :
    Good n owner (n', some task) := by
  refine ⟨h, fun next hnext => ?_⟩
  cases hnext
  exact hsound

lemma Quiet.goesOn (h : Quiet n n') (hsound : task.Sound n' owner) :
    Good n owner (n', some task) := h.effect.goesOn hsound

structure OwnedTask (n : Forwarder) (task : Task) : Prop where
  hop : ∀ work ∈ task.worksFor, ∀ hop ∈ n.hops.get? work.1, hop.upstreamSession = work.2
  pending : ∀ entry ∈ task.reserves, (n.pending entry.1).get? entry.2 = none

variable {task : Task}

section

variable (hs : n.Invariant)
include hs

section

variable (hsound : task.Sound n owner)
include hsound

lemma actOpen_good (howned : OwnedTask n task) : Good n owner (n.actOpen cfg c task) := by
  cases task with
  | openCapacity job =>
    simp only [actOpen]
    split_ifs
    · refine (Quiet.refuse ?_).done
      exact ⟨nofun, nofun, nofun⟩
    · exact (Quiet.refl n).goesOn hsound
  | openLookup job =>
    simp only [actOpen]
    split
    · refine (Quiet.refuse ?_).done
      exact ⟨nofun, nofun, nofun⟩
    · exact (Quiet.refl n).goesOn hsound
  | openContains job down =>
    simp only [actOpen]
    split_ifs with hsome
    · -- the hop found is one the session feeds itself
      obtain ⟨hop, hget⟩ := Option.isSome_iff_exists.mp hsome
      have hfeeder : hop.upstreamSession = job.session := howned.hop _ rfl hop hget
      have hopened := (hs.hops _ hop hget).2
      rw [hfeeder] at hopened
      refine (Quiet.refuse ?_).done
      exact ⟨nofun, nofun, fun _ => ⟨_, hopened⟩⟩
    · refine (Quiet.refl n).goesOn ⟨hsound, fun hop hget => ?_⟩
      rw [hget] at hsome
      exact absurd rfl hsome
  | openReserve job down =>
    simp only [actOpen]
    split
    · next reason hreserve =>
      have hfree := howned.pending _ rfl
      have hreason : reason = .pendingFull := by
        simp only [Forwarder.reserve, hfree, Option.isSome_none, Bool.false_eq_true,
          if_false] at hreserve
        split_ifs at hreserve
        cases hreserve
        rfl
      subst hreason
      refine (Quiet.refuse ?_).done
      exact ⟨nofun, nofun, nofun⟩
    · next reserved hreserve =>
      have hq := Quiet.reserve hreserve
      have hnext : (Task.openSend job down).Sound n owner := hsound
      exact hq.goesOn (hnext.quiet hq)
  | openSend job down =>
    simp only [actOpen]
    split_ifs
    · exact (Quiet.refl n).goesOn (.inl rfl)
    · exact (Quiet.refl n).goesOn (.inr rfl)
    · refine (Quiet.record ?_).goesOn
        ⟨hsound.1, hsound.2, forwardedOpen job.frame job.context, rfl, mem_cons_self⟩
      trivial
  | openWithdraw job down reason =>
    simp only [actOpen]
    refine ((Quiet.withdraw n down job.trace).trans (Quiet.refuse ?_)).done
    rcases hsound with rfl | rfl <;> exact ⟨nofun, nofun, nofun⟩
  | openRegister job down =>
    obtain ⟨howner, hunfed, hopened⟩ := hsound
    -- a hop here would be fed by this session, which feeds none
    have hnone : n.hops.get? job.trace = none := by
      cases hget : n.hops.get? job.trace with
      | none => rfl
      | some hop => exact absurd (howned.hop _ rfl hop hget) (hunfed hop hget)
    simp only [actOpen, hnone]
    refine Effect.done ⟨rfl, suffix_rfl, id, .register hnone ?_ ?_ ?_ rfl⟩
    · exact howner
    · rfl
    · exact hopened
  | _ => exact (Quiet.refl n).goesOn hsound

lemma actBody_good (howned : OwnedTask n task) : Good n owner (n.actBody c task) := by
  cases task with
  | chunkSnapshot s frame =>
    simp only [actBody]
    cases hget : n.hops.get? frame.traceId with
    | none => exact (Quiet.refl n).done
    | some hop =>
      have hopened := (hs.hops _ hop hget).2
      rw [howned.hop _ rfl hop hget] at hopened
      exact (Quiet.refl n).goesOn hopened
  | chunkLock s frame hop =>
    simp only [actBody]
    split_ifs
    · exact (Quiet.refl n).goesOn hsound
    · exact (Quiet.setLock n _ _).goesOn hsound
  | chunkContains s frame hop =>
    simp only [actBody]
    split_ifs
    · exact (Quiet.refl n).goesOn hsound
    · exact (Quiet.setLock n _ _).done
  | chunkSend s frame hop =>
    simp only [actBody]
    split_ifs
    · have hrelayed : (Event.relayed s (.chunk frame) hop.downstream).Justified n.log := hsound
      exact ((Quiet.record hrelayed).trans (Quiet.setLock _ _ _)).done
    · exact (Quiet.refl n).goesOn hsound
  | chunkFail s frame hop =>
    simp only [actBody]
    split
    · exact (Quiet.setLock n _ _).done
    · next taken hget =>
      have htake : Effect n (n.take s frame.traceId) owner :=
        effect_take hget (howned.hop _ rfl taken hget)
      exact (htake.quiet ((Quiet.sendStatus _ _ _ _ _).trans (Quiet.setLock _ _ _))).done
  | endSnapshot s frame =>
    simp only [actBody]
    cases n.hops.get? frame.traceId with
    | none => exact (Quiet.refl n).done
    | some hop => exact (Quiet.refl n).goesOn trivial
  | endLock s frame hop =>
    simp only [actBody]
    split_ifs
    · exact (Quiet.refl n).goesOn trivial
    · exact (Quiet.setLock n _ _).goesOn trivial
  | endTake s frame hop =>
    simp only [actBody]
    split
    · exact (Quiet.setLock n _ _).done
    · next taken hget =>
      have hfeeder : taken.upstreamSession = s := howned.hop _ rfl taken hget
      have htake : Effect n (n.take s frame.traceId) owner := effect_take hget hfeeder
      have hopened := (hs.hops _ taken hget).2
      rw [hfeeder] at hopened
      exact (htake.quiet (Quiet.setLock _ _ _)).goesOn (hopened.mono htake.log.subset)
  | endSend s frame hop =>
    simp only [actBody]
    split_ifs
    · have hrelayed : (Event.relayed s (.ending frame) hop.downstream).Justified n.log := hsound
      exact (Quiet.record hrelayed).done
    · exact (Quiet.sendStatus _ _ _ _ _).done
  | _ => exact (Quiet.refl n).goesOn hsound

lemma actClose_good (howned : OwnedTask n task) : Good n owner (n.actClose c task) := by
  cases task with
  | closeList s => exact (Quiet.refl n).goesOn trivial
  | closeNext s remaining =>
    cases remaining with
    | nil => exact (Quiet.refl n).done
    | cons trace remaining =>
      simp only [actClose]
      split <;> exact (Quiet.refl n).goesOn trivial
  | closeLock s trace hop remaining =>
    simp only [actClose]
    split_ifs
    · exact (Quiet.refl n).goesOn trivial
    · exact (Quiet.setLock n _ _).goesOn trivial
  | closeTake s trace hop remaining =>
    simp only [actClose]
    split
    · exact (Quiet.setLock n _ _).goesOn trivial
    · next taken hget =>
      have hfeeder : taken.upstreamSession = s := howned.hop _ rfl taken hget
      have htake : Effect n (n.take s trace) owner := effect_take hget hfeeder
      have hopened := (hs.hops _ taken hget).2
      rw [hfeeder] at hopened
      exact (htake.quiet (Quiet.setLock _ _ _)).goesOn (hopened.mono htake.log.subset)
  | closeSend s trace hop remaining =>
    simp only [actClose]
    split_ifs
    · have hrelayed :
          (Event.relayed s (.ending ⟨trace, .interrupted⟩) hop.downstream).Justified n.log := hsound
      exact (Quiet.record hrelayed).goesOn trivial
    · exact (Quiet.refl n).goesOn trivial
  | _ => exact (Quiet.refl n).goesOn hsound

end

lemma markAdmitted_effect (trace : TraceId) : Effect n (n.markAdmitted trace) owner := by
  unfold Forwarder.markAdmitted
  split
  · exact (Quiet.refl n).effect
  · next hop hget =>
    split
    · exact effect_setHop hget rfl rfl (hs.hops trace hop hget).2
    · exact (Quiet.refl n).effect

section

variable (hsound : task.Sound n owner)
include hsound

lemma actAck_good : Good n owner (n.actAck c task) := by
  cases task with
  | ackSteer s ack =>
    simp only [actAck]
    split_ifs
    · exact (Quiet.refl n).goesOn trivial
    · exact (Quiet.refl n).done
  | ackOwned s ack =>
    simp only [actAck]
    split_ifs <;> exact (Quiet.refl n).goesOn trivial
  | ackMark s ack =>
    simp only [actAck]
    split_ifs
    · exact (markAdmitted_effect hs ack.traceId).goesOn trivial
    · exact (Quiet.refl n).goesOn trivial
  | ackResolve s ack =>
    simp only [actAck]
    split
    · exact (Quiet.refl n).goesOn trivial
    · exact (Quiet.withdraw n _ _).done
    · exact ((Quiet.withdraw n _ _).trans (Quiet.sendAck _ _ _ _)).done
  | ackRelay ack =>
    simp only [actAck]
    split
    · split_ifs
      · exact (Quiet.refl n).done
      · exact (Quiet.sendAck _ _ _ _).done
    · exact (Quiet.refl n).done
  | _ => exact (Quiet.refl n).goesOn hsound

lemma actFail_good (howned : OwnedTask n task) : Good n owner (n.actFail cfg c task) := by
  cases task with
  | failTake trace =>
    simp only [actFail]
    split
    · exact (Quiet.refl n).done
    · next hop hget =>
      split
      · have hset : Effect n (n.setHop trace { hop with phase := .redispatching }) owner :=
          effect_setHop hget rfl rfl (hs.hops trace hop hget).2
        exact (hset.quiet (Quiet.withdraw _ _ _)).goesOn trivial
      · exact (Quiet.refl n).done
  | failNext search =>
    simp only [actFail]
    split
    · exact (Quiet.refl n).goesOn trivial
    · split
      · exact (Quiet.refl n).goesOn trivial
      · split_ifs <;> exact (Quiet.refl n).goesOn trivial
  | failExhausted search =>
    simp only [actFail]
    split
    · exact (Quiet.refl n).done
    · next hop hget =>
      have htake : Effect n (n.take search.upstream search.trace) owner :=
        effect_take hget (howned.hop _ rfl hop hget)
      exact (htake.quiet (Quiet.sendStatus _ _ _ _ _)).done
  | failReserve search down =>
    simp only [actFail]
    split
    · exact (Quiet.refl n).goesOn trivial
    · next reserved hreserve => exact (Quiet.reserve hreserve).goesOn trivial
  | failSend search down =>
    simp only [actFail]
    split_ifs
    · refine (Quiet.record ?_).goesOn ⟨search.frame, rfl, mem_cons_self⟩
      trivial
    · exact (Quiet.withdraw n _ _).goesOn trivial
  | failRebind search down =>
    simp only [actFail]
    split
    · exact (Quiet.refl n).done
    · next hop hget =>
      have hopened : Opened n.log hop.upstreamSession search.trace down := by
        rw [howned.hop _ rfl hop hget]
        exact hsound
      refine Effect.done (effect_setHop hget ?_ ?_ ?_)
      · rfl
      · rfl
      · exact hopened
  | _ => exact (Quiet.refl n).goesOn hsound

lemma act_good (howned : OwnedTask n task) : Good n owner (n.act cfg c task) := by
  unfold act
  split <;>
    first
    | with_reducible exact actOpen_good hs hsound howned
    | with_reducible exact actBody_good hs hsound howned
    | with_reducible exact actClose_good hs hsound howned
    | with_reducible exact actAck_good hs hsound
    | with_reducible exact actFail_good hs hsound howned

end

end

/-! ## Runs -/

namespace Forwarder

lemma invariant_start : start.Invariant where
  hops _ _ h := nomatch h
  tasks _ _ h := nomatch h
  log := trivial

lemma Invariant.hops_effect (hs : n.Invariant) (heffect : Effect n n' owner) (trace : TraceId)
    (hop : ForwardingHop) (hget : n'.hops.get? trace = some hop) :
    hop.upstream = hop.upstreamSession ∧
      Opened n'.log hop.upstreamSession trace hop.downstream := by
  have hold (hget : n.hops.get? trace = some hop) :
      hop.upstream = hop.upstreamSession ∧
        Opened n'.log hop.upstreamSession trace hop.downstream :=
    ⟨(hs.hops trace hop hget).1, (hs.hops trace hop hget).2.mono heffect.log.subset⟩
  cases heffect.hops with
  | same hhops =>
    rw [hhops] at hget
    exact hold hget
  | @update trace' previous new hprevious hfeeder hup hopened hhops =>
    rw [hhops] at hget
    by_cases htrace : trace = trace'
    · subst htrace
      rw [get?_insert_self] at hget
      cases hget
      exact ⟨by rw [hup, hfeeder, (hs.hops trace previous hprevious).1], hopened⟩
    · rw [get?_insert_of_ne htrace] at hget
      exact hold hget
  | @register trace' new hnone howner hup hopened hhops =>
    rw [hhops] at hget
    by_cases htrace : trace = trace'
    · subst htrace
      rw [get?_insert_self] at hget
      cases hget
      exact ⟨hup, hopened⟩
    · rw [get?_insert_of_ne htrace] at hget
      exact hold hget
  | @erase trace' previous hprevious hremoved hhops =>
    rw [hhops] at hget
    by_cases htrace : trace = trace'
    · rw [htrace, OrdMap.get?_erase_self] at hget
      cases hget
    · rw [get?_erase_of_ne htrace] at hget
      exact hold hget

lemma Invariant.advance (hs : n.Invariant) {result : Forwarder × Option Task}
    (hgood : Good n owner result) : (advance owner result).Invariant where
  hops trace hop hget := hs.hops_effect hgood.effect trace hop hget
  log := hgood.effect.sound hs.log
  tasks other task hother := by
    have hother : Function.update result.1.tasks owner result.2 other = some task := hother
    by_cases howner : other = owner
    · subst howner
      rw [Function.update_self] at hother
      exact (hgood.next task hother).mono (List.Subset.refl _) fun _ _ _ h => h
    · rw [Function.update_of_ne howner, hgood.effect.tasks] at hother
      refine (hs.tasks other task hother).mono hgood.effect.log.subset fun s trace hreader h => ?_
      refine hgood.effect.unfed ?_ h
      rintro rfl
      exact howner hreader

lemma Invariant.quiet (hs : n.Invariant) (hq : Quiet n n') : n'.Invariant where
  hops trace hop hget := by
    rw [hq.hops] at hget
    exact ⟨(hs.hops trace hop hget).1, (hs.hops trace hop hget).2.mono hq.log.subset⟩
  log := hq.sound hs.log
  tasks other task hother := by
    rw [hq.tasks] at hother
    exact (hs.tasks other task hother).quiet hq

def drives : Action → Option Owner
  | .acts owner _ | .cancels owner => some owner
  | _ => none

/-- What a step of the node is: quiet, or the move of one handler, which was idle or is the one the
action drives. -/
inductive StepCase (n : Forwarder) (action : Action) : Forwarder → Prop where
  | quiet {n' : Forwarder} : Quiet n n' → StepCase n action n'
  | moves {owner : Owner} {n' : Forwarder} {next : Option Task} : Good n owner (n', next) →
      n.tasks owner = none ∨ drives action = some owner →
      StepCase n action (n'.setTask owner next)

variable {action : Action}

lemma stepCase_begins {s : SessionIdentity} {next : Option Task}
    (hnext : ∀ task, next = some task → task.Sound n (.reader s)) :
    StepCase n action (n.begins s next) := by
  unfold begins
  split
  · exact .quiet (Quiet.refl n)
  · next hidle => exact .moves ⟨(Quiet.refl n).effect, hnext⟩ (.inl hidle)

lemma stepCase_openArrives (s : SessionIdentity) (frame : OpenFrame)
    (plan : RouteContext → Result (List NodeId)) (peers : List NodeId) :
    StepCase n action (n.openArrives cfg s frame plan peers c) := by
  unfold Forwarder.openArrives
  split
  · exact .quiet (Quiet.refl n)
  · next hidle =>
    dsimp only
    split
    · refine .moves ?_ (.inl hidle)
      exact (Quiet.refl n).goesOn rfl
    · refine .quiet (Quiet.refuse ?_)
      exact ⟨nofun, nofun, nofun⟩

lemma stepCase (cfg : ForwardConfig) (hs : n.Invariant) (howned : n.Owned action) :
    StepCase n action (n.step cfg action) := by
  cases action with
  | connect peer session => exact .quiet ⟨rfl, rfl, suffix_rfl, id⟩
  | openArrives s frame plan peers choice => exact stepCase_openArrives s frame plan peers
  | chunkArrives s frame | endArrives s frame =>
    refine stepCase_begins fun task htask => ?_
    split_ifs at htask
    cases htask
    trivial
  | ackArrives s ack | closes s =>
    refine stepCase_begins fun task htask => ?_
    cases htask
    trivial
  | expires timer s trace =>
    simp only [Forwarder.step]
    split
    · next hidle _ =>
      refine .moves ?_ (.inl hidle)
      exact (Quiet.withdraw n s trace).goesOn trivial
    · exact .quiet (Quiet.refl n)
  | acts owner choice =>
    simp only [Forwarder.step]
    split
    · exact .quiet (Quiet.refl n)
    · next task htask =>
      obtain ⟨hhop, hpending⟩ := howned task htask
      have hgood : Good n owner (n.act cfg choice task) :=
        act_good hs (hs.tasks owner task htask) ⟨hhop, hpending⟩
      exact .moves hgood (.inr rfl)
  | cancels owner =>
    simp only [Forwarder.step]
    split
    · exact .quiet (Quiet.refl n)
    · split
      · exact .moves (Quiet.refl n).done (.inr rfl)
      · exact .moves (Quiet.setLock n _ _).done (.inr rfl)

namespace StepCase

variable {action : Action}

section

variable (h : StepCase n action n')
include h

lemma invariant (hs : n.Invariant) : n'.Invariant := by
  cases h with
  | quiet hq => exact hs.quiet hq
  | moves hgood _ => exact hs.advance hgood

lemma log : n.log <:+ n'.log := by
  cases h with
  | quiet hq => exact hq.log
  | moves hgood _ => exact hgood.effect.log

lemma tasks (htask : n.tasks owner = some task) (hdrives : drives action ≠ some owner) :
    n'.tasks owner = some task := by
  cases h with
  | quiet hq => rw [hq.tasks, htask]
  | @moves other mid next hgood hother =>
    have hne : owner ≠ other := by
      rintro rfl
      rcases hother with hidle | hdriven
      · cases hidle.symm.trans htask
      · exact hdrives hdriven
    have hmid : mid.tasks = n.tasks := hgood.effect.tasks
    have hupdate : (mid.setTask other next).tasks owner = mid.tasks owner :=
      Function.update_of_ne hne _ _
    rw [hupdate, hmid, htask]

end

end StepCase

def KeepsHops (n n' : Forwarder) : Prop :=
  ∀ trace hop, n.hops.get? trace = some hop →
    (∃ hop', n'.hops.get? trace = some hop' ∧ hop'.upstreamSession = hop.upstreamSession) ∨
      .removed hop.upstreamSession trace hop.upstreamSession :: n.log <:+ n'.log

lemma keepsHops_of_effect (h : Effect n n' owner) : n.KeepsHops n' := by
  intro trace hop hget
  have hother {hops' : OrdMap TraceId ForwardingHop} (hhops : n'.hops = hops')
      (hsame : hops'.get? trace = n.hops.get? trace) :
      ∃ hop', n'.hops.get? trace = some hop' ∧ hop'.upstreamSession = hop.upstreamSession :=
    ⟨hop, by rw [hhops, hsame, hget], rfl⟩
  cases h.hops with
  | same hhops => exact .inl (hother hhops rfl)
  | @update trace' previous new hprevious hfeeder hup hopened hhops =>
    by_cases htrace : trace = trace'
    · subst htrace
      obtain rfl := Option.some.inj (hget.symm.trans hprevious)
      exact .inl ⟨new, by rw [hhops, get?_insert_self], hfeeder⟩
    · exact .inl (hother hhops (get?_insert_of_ne htrace))
  | @register trace' new hnone howner hup hopened hhops =>
    by_cases htrace : trace = trace'
    · subst htrace
      cases hnone.symm.trans hget
    · exact .inl (hother hhops (get?_insert_of_ne htrace))
  | @erase trace' previous hprevious hremoved hhops =>
    by_cases htrace : trace = trace'
    · subst htrace
      obtain rfl := Option.some.inj (hget.symm.trans hprevious)
      exact .inr hremoved
    · exact .inl (hother hhops (get?_erase_of_ne htrace))

lemma StepCase.keepsHops (h : StepCase n action n') : n.KeepsHops n' := by
  cases h with
  | quiet hq =>
    have heffect : Effect n n' (.timer 0) := hq.effect
    exact keepsHops_of_effect heffect
  | @moves owner mid next hgood _ =>
    have hkeeps : n.KeepsHops mid := keepsHops_of_effect hgood.effect
    exact hkeeps

end Forwarder

/-! ## An open that finds room is forwarded -/

/-- The open a handler works on before it is sent, and how many of its steps are left until
then. -/
def Task.remaining : Task → Option (OpenJob × ℕ)
  | .openCapacity job => some (job, 5)
  | .openLookup job => some (job, 4)
  | .openContains job _ => some (job, 3)
  | .openReserve job _ => some (job, 2)
  | .openSend job _ => some (job, 1)
  | _ => none

namespace Forwarder

/-- The step of an open finds what it asks for: room in the table, a live next hop, room in the
pending map, and a queue that takes the frame. -/
def HasRoom (cfg : ForwardConfig) (n : Forwarder) (c : Choice) : Task → Prop
  | .openCapacity _ => n.hops.entries.length < cfg.forwardingCapacity
  | .openLookup job => (n.sessions job.nextHop).isSome = true
  | .openReserve _ down => (n.pending down).entries.length < cfg.pendingAdmissions
  | .openSend _ _ => c.encodes = true ∧ c.accepted = true
  | _ => True

def Clear (cfg : ForwardConfig) (s : SessionIdentity) (n : Forwarder) : Action → Prop
  | .acts owner choice => owner = .reader s → ∀ task ∈ n.tasks owner, n.HasRoom cfg choice task
  | .cancels owner => owner ≠ .reader s
  | _ => True

def ownSteps (s : SessionIdentity) (actions : List Action) : ℕ :=
  actions.countP fun
    | .acts owner _ => owner = .reader s
    | _ => false

end Forwarder

/-- A step of an open that finds room: the open is sent, was sent before, or one step less is
left. -/
theorem actOpen_remaining {job : OpenJob} {k : ℕ} (hs : n.Invariant) (howned : OwnedTask n task)
    (hroom : n.HasRoom cfg c task) (hremaining : task.remaining = some (job, k)) :
    (∃ target, Opened (n.act cfg c task).1.log job.session job.trace target) ∨
      ∃ next k', (n.act cfg c task).2 = some next ∧ next.remaining = some (job, k') ∧ k = k' +
        1 := by
  cases task with
  | openCapacity job =>
    cases hremaining
    refine .inr ⟨.openLookup job, 4, ?_, rfl, rfl⟩
    simp only [act, actOpen, if_neg (Nat.not_le.mpr hroom)]
  | openLookup job =>
    cases hremaining
    obtain ⟨down, hdown⟩ := Option.isSome_iff_exists.mp hroom
    refine .inr ⟨.openContains job down, 3, ?_, rfl, rfl⟩
    simp only [act, actOpen, hdown]
  | openContains job down =>
    cases hremaining
    cases hget : n.hops.get? job.trace with
    | none =>
      refine .inr ⟨.openReserve job down, 2, ?_, rfl, rfl⟩
      simp only [act, actOpen, hget, Option.isSome_none, Bool.false_eq_true,
        if_false]
    | some hop =>
      -- the session feeds this hop itself, so its open was sent before
      have hopened := (hs.hops _ hop hget).2
      rw [howned.hop _ rfl hop hget] at hopened
      have hgood : Good n (.reader job.session) (n.act cfg c (.openContains job down)) :=
        act_good hs rfl howned
      exact .inl ⟨_, hopened.mono hgood.effect.log.subset⟩
  | openReserve job down =>
    cases hremaining
    refine .inr ⟨.openSend job down, 1, ?_, rfl, rfl⟩
    have hfree := howned.pending _ rfl
    simp only [act, actOpen, Forwarder.reserve, hfree, Option.isSome_none,
      Bool.false_eq_true, if_false, if_neg (Nat.not_le.mpr hroom)]
  | openSend job down =>
    cases hremaining
    refine .inl ⟨down, forwardedOpen job.frame job.context, rfl, ?_⟩
    simp only [act, actOpen, hroom.1, hroom.2, Bool.not_true,
      Bool.false_eq_true, if_false, Forwarder.record]
    exact mem_cons_self
  | _ => cases hremaining

namespace Forwarder

variable {actions : List Action}

lemma log_run (hs : n.Invariant) (howned : EveryStep (step cfg) Owned n actions) :
    n.log <:+ (n.run cfg actions).log := by
  induction actions generalizing n with
  | nil => exact suffix_rfl
  | cons action actions ih =>
    obtain ⟨hfirst, hrest⟩ := everyStep_cons.mp howned
    have hcase := stepCase cfg hs hfirst
    exact hcase.log.trans (ih (hcase.invariant hs) hrest)

lemma opened_of_clear {job : OpenJob} {k : ℕ} (hs : n.Invariant)
    (howned : EveryStep (step cfg) Owned n actions)
    (hclear : EveryStep (step cfg) (Clear cfg job.session) n actions)
    (htask : n.tasks (.reader job.session) = some task)
    (hremaining : task.remaining = some (job, k)) (hsteps : k ≤ ownSteps job.session actions) :
    ∃ target, Opened (n.run cfg actions).log job.session job.trace target := by
  -- the induction is on the actions to come; only a step of this read loop lowers the count
  induction actions generalizing n task k with
  | nil =>
    cases task <;> cases hremaining <;> exact absurd hsteps (Nat.not_succ_le_zero _)
  | cons action actions ih =>
    obtain ⟨hfirst, hrest⟩ := everyStep_cons.mp howned
    obtain ⟨hclearFirst, hclearRest⟩ := everyStep_cons.mp hclear
    have hcase := stepCase cfg hs hfirst
    have hnext := hcase.invariant hs
    by_cases hdrives : drives action = some (.reader job.session)
    · cases action with
      | acts owner choice =>
        obtain rfl : owner = .reader job.session := Option.some.inj hdrives
        obtain ⟨hhop, hpending⟩ := hfirst task htask
        have hstep : n.step cfg (.acts (.reader job.session) choice) =
            advance (.reader job.session) (n.act cfg choice task) := by
          simp only [step, htask]
        rcases actOpen_remaining hs ⟨hhop, hpending⟩ (hclearFirst rfl task htask) hremaining with
          ⟨target, hopened⟩ | ⟨next, k', hnextTask, hnextRemaining, rfl⟩
        · refine ⟨target, ?_⟩
          have hopened : Opened (n.step cfg (.acts (.reader job.session) choice)).log
              job.session job.trace target := by
            rw [hstep]
            exact hopened
          exact hopened.mono (log_run hnext hrest).subset
        · refine ih hnext hrest hclearRest ?_ hnextRemaining ?_
          · rw [hstep, ← hnextTask]
            exact Function.update_self _ _ _
          · simp only [ownSteps, List.countP_cons, decide_true, if_true] at hsteps ⊢
            omega
      | cancels owner => exact absurd (Option.some.inj hdrives) hclearFirst
      | _ => cases hdrives
    · refine ih hnext hrest hclearRest (hcase.tasks htask hdrives) hremaining ?_
      have hcount : ownSteps job.session (action :: actions) = ownSteps job.session actions := by
        refine List.countP_cons_of_neg ?_
        cases action with
        | acts owner choice =>
          intro h
          exact hdrives (congrArg some (of_decide_eq_true h))
        | _ => exact Bool.false_ne_true
      rw [hcount] at hsteps
      exact hsteps

structure Apart (cfg : ForwardConfig) (n : Forwarder) (actions : List Action) : Prop where
  forwarded : ∀ before middle after job, actions = before ++ (middle ++ after) →
    (n.run cfg before).tasks (.reader job.session) = some (.openCapacity job) →
    EveryStep (step cfg) (Clear cfg job.session) (n.run cfg before) middle →
    5 ≤ ownSteps job.session middle →
    ∃ target, Opened (n.run cfg (before ++ middle)).log job.session job.trace target
  /-- No open is refused for the trace it shares: only one its own session sent before is a
  duplicate. -/
  refusals : ∀ newer older s trace reason,
    (n.run cfg actions).log = newer ++ .refused s trace reason :: older →
    reason ≠ .registered ∧ reason ≠ .pendingDuplicate ∧
      (reason = .duplicate → ∃ target, Opened older s trace target)
  directed : ∀ newer older s frame target,
    (n.run cfg actions).log = newer ++ .relayed s frame target :: older →
    Opened older s frame.trace target
  separate : ∀ worker trace feeder, .removed worker trace feeder ∈ (n.run cfg actions).log →
    feeder = worker
  kept : ∀ before action after, actions = before ++ action :: after →
    (n.run cfg before).KeepsHops ((n.run cfg before).step cfg action)

end Forwarder

/-- **Two directions of one trace share a relay** in every run in which a handler finds under its
trace no hop, or a hop of the session it works for, and the next hop of an open owes no
acknowledgement for its trace. -/
theorem apart_of_owned (cfg : ForwardConfig) (actions : List Action)
    (howned : EveryStep (Forwarder.step cfg) Forwarder.Owned .start actions) :
    Forwarder.Apart cfg .start actions := by
  have hinv (before after : List Action) (hcut : actions = before ++ after) :
      (Forwarder.start.run cfg before).Invariant :=
    invariant_of_run Forwarder.invariant_start (fun before action after hsplit hs =>
      (Forwarder.stepCase cfg hs (howned before action after hsplit)).invariant hs) before after
        hcut
  have hend := hinv actions [] (List.append_nil _).symm
  refine ⟨?_, ?_, ?_, ?_, ?_⟩
  · intro before middle after job hcut htask hclear hsteps
    have hmiddle : EveryStep (Forwarder.step cfg) Forwarder.Owned
        (Forwarder.start.run cfg before) middle := by
      intro first action rest hsplit
      have h := howned (before ++ first) action (rest ++ after) (by rw [hcut, hsplit]; simp)
      rw [List.foldl_append] at h
      exact h
    have hopened := Forwarder.opened_of_clear (hinv before _ hcut) hmiddle hclear htask rfl hsteps
    rw [Forwarder.run, List.foldl_append]
    exact hopened
  · intro newer older s trace reason hlog
    exact LogSound.justified (hlog ▸ hend.log)
  · intro newer older s frame target hlog
    exact LogSound.justified (hlog ▸ hend.log)
  · intro worker trace feeder hmem
    obtain ⟨newer, older, hlog⟩ := List.append_of_mem hmem
    exact LogSound.justified (hlog ▸ hend.log)
  · intro before action after hcut
    exact (Forwarder.stepCase cfg (hinv before _ hcut)
      (howned before action after hcut)).keepsHops

/-! ## A request and its reply -/

def sampleRelay : ForwardConfig := ⟨sampleNode 1, 8, 8⟩

def requester : SessionIdentity := ⟨sampleNode 0, 0⟩

def responder : SessionIdentity := ⟨sampleNode 5, 1⟩

def sampleRequest : OpenFrame := sampleFrame (sampleEnvelope [] 0 6 [5])

def sampleReply : OpenFrame :=
  sampleFrame ⟨sampleTrace, sampleNode 5, sampleNode 0, ⟨sampleNode 5, [], 1, [sampleNode 0]⟩⟩

def sampleChunk (byte : UInt8) : ChunkFrame := ⟨sampleTrace, 0, [byte]⟩

def sampleEnd : EndFrame := ⟨sampleTrace, .completed⟩

variable (s : SessionIdentity)

def reads (count : ℕ) : List Action :=
  List.replicate count (.acts (.reader s) ⟨true, true, .failed⟩)

def sendsOpen (frame : OpenFrame) : List Action :=
  .openArrives s frame (fun _ => .ok []) [] ⟨true, true, .failed⟩ :: reads s 6

def sendsChunk (byte : UInt8) : List Action :=
  .chunkArrives s (sampleChunk byte) :: reads s 4

def sendsEnd : List Action := .endArrives s sampleEnd :: reads s 4

def requestUnderWay : List Action :=
  .connect (sampleNode 0) (some requester) :: .connect (sampleNode 5) (some responder) ::
    (sendsOpen requester sampleRequest ++ sendsChunk requester 1)

def replyAfterRequest : List Action :=
  requestUnderWay ++ .ackArrives responder ⟨sampleTrace, .admitted, 0⟩ :: reads responder 4 ++
    sendsEnd requester ++ sendsOpen responder sampleReply ++ sendsChunk responder 2 ++
    sendsEnd responder

def replyDuringRequest : List Action :=
  requestUnderWay ++ sendsOpen responder sampleReply ++ sendsChunk responder 2 ++ sendsEnd responder

theorem apart_replyAfterRequest :
    Forwarder.Apart sampleRelay .start replyAfterRequest ∧
      .relayed requester (.chunk (sampleChunk 1)) responder ∈
        (Forwarder.start.run sampleRelay replyAfterRequest).log ∧
      .relayed responder (.chunk (sampleChunk 2)) requester ∈
        (Forwarder.start.run sampleRelay replyAfterRequest).log :=
  ⟨apart_of_owned sampleRelay replyAfterRequest (by decide +kernel), by decide +kernel,
    by decide +kernel⟩

/-- While the request is under way, the open of its reply is refused as a duplicate, the reply's
chunk and end go back to the responder, and its end removes the hop of the request, whose next
chunk is dropped. -/
theorem reply_ends_request :
    (Forwarder.start.run sampleRelay replyDuringRequest).log =
        [.relayed responder (.ending sampleEnd) responder,
          .removed responder sampleTrace requester,
          .relayed responder (.chunk (sampleChunk 2)) responder,
          .acked ⟨sampleTrace, .unsupported, 0⟩ responder,
          .refused responder sampleTrace .duplicate,
          .relayed requester (.chunk (sampleChunk 1)) responder,
          .opened requester (sampleFrame (sampleEnvelope [0] 1 5 [])) responder] ∧
      (Forwarder.start.run sampleRelay (replyDuringRequest ++ sendsChunk requester 3)).log =
        (Forwarder.start.run sampleRelay replyDuringRequest).log := by
  refine ⟨by decide +kernel, by decide +kernel⟩

end Radiata.Routing
