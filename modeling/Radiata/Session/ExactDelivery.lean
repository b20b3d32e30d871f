import Radiata.Routing.Walk
import Radiata.Session.Delivery
import Radiata.Session.Table

/-!
# Exact delivery

For every sequence of frames and every drain schedule of the consumers: opens alone invoke
consumers, an open of an admitted trace invokes none, each consumer reads a prefix of the chunks
sent since its open and then one terminal, and chunks leave the slot of the terminal free.

The table remembers a stream only while it is admitted.  An open that repeats one after the
stream ended is a new stream to it.
-/

namespace Radiata.Session

open Lib Packet

namespace Inbound

variable {cfg : InboundConfig} {s : Inbound}

/-! ## Invocations -/

variable {channel : Channel StreamItem}

@[simp] lemma length_setChannel {i : ℕ} :
    (s.setChannel i channel).consumers.length = s.consumers.length :=
  List.length_modify _ _ _

variable {admitted : AdmittedStream}

@[simp] lemma length_terminate {trace : TraceId} :
    (s.terminate trace admitted channel).consumers.length = s.consumers.length :=
  length_setChannel (s := s.remove trace)

@[simp] lemma length_close : s.close.consumers.length = s.consumers.length := List.length_map _

@[simp] lemma length_queueChunk {frame : ChunkFrame} :
    (s.queueChunk frame admitted channel).consumers.length = s.consumers.length := by
  unfold queueChunk
  split
  · exact length_setChannel
  · exact length_terminate

lemma length_forwardChunk (frame : ChunkFrame) :
    (s.forwardChunk frame).consumers.length = s.consumers.length := by
  unfold forwardChunk
  split
  · rfl
  · split
    · exact length_close
    · split
      · rfl
      · dsimp only
        split_ifs
        · exact length_queueChunk
        · exact length_terminate
        · rfl

lemma length_handleEnd (frame : EndFrame) :
    (s.handleEnd frame).consumers.length = s.consumers.length := by
  unfold handleEnd
  split
  · rfl
  · split
    · rfl
    · exact length_setChannel (s := s.remove frame.traceId)

lemma length_wake (elapsed : Bool) : (s.wake elapsed).consumers.length = s.consumers.length := by
  unfold wake
  split
  · rfl
  · split
    · rfl
    · split
      · rfl
      · split_ifs
        · exact length_terminate
        · exact length_queueChunk
        · rfl

lemma length_handleOpen {frame : OpenFrame} {permit : Bool} {now later : ℤ} {sent : Bool} :
    (s.handleOpen cfg frame permit now later sent).consumers.length =
      (s.admitOpen cfg frame permit now later).1.consumers.length := by
  unfold handleOpen
  dsimp only
  split_ifs
  · rfl
  · exact length_close

lemma length_admitOpen {frame : OpenFrame} {permit : Bool} {now later : ℤ} :
    (s.admitOpen cfg frame permit now later).1.consumers.length ≤ s.consumers.length + 1 ∧
      ((s.incoming.get? frame.traceId).isSome = true →
        (s.admitOpen cfg frame permit now later).1.consumers.length = s.consumers.length) := by
  unfold admitOpen
  split
  · unfold admitStream
    cases hget : s.incoming.get? frame.traceId with
    | some admitted =>
      dsimp only
      split_ifs <;> exact ⟨Nat.le_succ _, fun _ => rfl⟩
    | none =>
      dsimp only
      split_ifs
      · exact ⟨Nat.le_succ _, fun _ => rfl⟩
      · exact ⟨Nat.le_succ _, fun _ => rfl⟩
      · exact ⟨Nat.le_succ _, fun _ => rfl⟩
      · exact ⟨(List.length_append).le, nofun⟩
  · exact ⟨Nat.le_succ _, fun _ => rfl⟩

lemma length_step_of_not_open {event : InboundEvent}
    (h : ∀ frame permit now later sent, event ≠ .opened frame permit now later sent) :
    (s.step cfg event).consumers.length = s.consumers.length := by
  cases event with
  | opened frame permit now later sent => exact absurd rfl (h frame permit now later sent)
  | chunk frame =>
    simp only [step]
    split_ifs
    · exact length_forwardChunk (s := s.record (.chunk frame)) frame
    · rfl
  | ended frame =>
    simp only [step]
    split_ifs
    · exact length_handleEnd (s := s.record (.ended frame)) frame
    · rfl
  | wake elapsed => exact length_wake elapsed
  | closed => exact length_close
  | polls i | releases i => exact List.length_modify _ _ _

lemma handleEnd_queues {frame : EndFrame} {c : Consumer} (running : s.running = true)
    (idle : s.waiting = none) (hget : s.incoming.get? frame.traceId = some admitted)
    (hc : s.consumers[admitted.consumer]? = some c) (live : c.channel.receiver = true)
    (room : c.channel.queue.length ≤ incomingStreamChunks) :
    (s.step cfg (.ended frame)).consumers[admitted.consumer]? =
      some { c with channel := (c.channel.push (terminalItem frame.reason)).dropSender } := by
  have hslots : c.channel.queue.length < incomingSlots := Nat.lt_succ_of_le room
  have hget' : (s.record (.ended frame)).incoming.get? frame.traceId = some admitted := hget
  have hchannel : (s.record (.ended frame)).channel admitted = some c.channel := by
    rw [channel, show (s.record (.ended frame)).consumers = s.consumers from rfl, hc]
    rfl
  simp only [step, if_pos (And.intro running idle), handleEnd, hget', hchannel]
  rw [Channel.trySend_of_room live hslots, Option.getD_some]
  exact setChannel_self (s := (s.record (.ended frame)).remove frame.traceId) hc

/-! ## Exact delivery -/

end Inbound

lemma Consumer.poll_of_terminal {c : Consumer} (h : c.terminal.isSome = true) : c.poll = c :=
  if_pos (.inl h)

lemma Consumer.poll_terminates (n : ℕ) :
    ∀ c : Consumer, c.channel.queue.length ≤ n → c.channel.sender = false →
      c.channel.receiver = true → (Consumer.poll^[n + 1] c).terminal.isSome = true := by
  induction n with
  | zero =>
    rintro ⟨trace, opened, ⟨queue, sender, receiver⟩, read, terminal⟩ hqueue hsender hreceiver
    obtain rfl := List.eq_nil_of_length_eq_zero (Nat.le_zero.mp hqueue)
    obtain rfl : sender = false := hsender
    obtain rfl : receiver = true := hreceiver
    cases terminal <;> rfl
  | succ n ih =>
    intro c hqueue hsender hreceiver
    rw [Function.iterate_succ_apply]
    obtain ⟨-, -, hsend, hreceive, hlength⟩ := c.polls.keeps
    cases hterminal : c.poll.terminal with
    | some terminal =>
      have hsome : c.poll.terminal.isSome = true := Option.isSome_of_eq_some hterminal
      rw [Function.iterate_fixed (Consumer.poll_of_terminal hsome)]
      exact hsome
    | none =>
      refine ih _ ?_ (hsend.trans hsender) (hreceive.trans hreceiver)
      -- a poll that meets no terminal reads a chunk
      obtain ⟨trace, opened, ⟨queue, sender, receiver⟩, read, terminal⟩ := c
      obtain rfl : sender = false := hsender
      obtain rfl : receiver = true := hreceiver
      cases terminal with
      | some => cases hterminal
      | none =>
        cases queue with
        | nil => cases hterminal
        | cons item rest =>
          cases item with
          | chunk bytes => exact Nat.le_of_succ_le_succ hqueue
          | finish => cases hterminal
          | interrupted => cases hterminal

structure Consumer.Exact (log : List Handled) (c : Consumer) : Prop where
  read : c.read <+: (c.sent log).map ChunkFrame.bytes
  numbered : Numbered ((c.sent log).take c.read.length)
  ended : c.terminal = some .ended →
    ∃ front back frame, log = front ++ .ended frame :: back ∧ frame.traceId = c.trace ∧
      frame.reason = .completed ∧ c.opened ≤ front.length ∧
      c.read = (c.sent front).map ChunkFrame.bytes
  terminates : c.channel.sender = false → c.channel.receiver = true →
    (Consumer.poll^[c.channel.queue.length + 1] c).terminal.isSome = true
  final : c.terminal.isSome = true → c.poll = c

structure ExactDelivery (cfg : InboundConfig) (s : Inbound) : Prop where
  bound : s.incoming.entries.length ≤ cfg.queueMessages
  streams : ∀ c ∈ s.consumers, c.Exact s.log
  window : ∀ trace admitted, s.incoming.get? trace = some admitted →
    ∃ c, s.consumers[admitted.consumer]? = some c ∧ c.trace = trace ∧
      c.channel.queue.length ≤ incomingStreamChunks
  -- a stream that ended, was cut off or lost its session has no sender, so it terminates
  owned : ∀ (i : ℕ) (c : Consumer), s.consumers[i]? = some c → c.channel.sender = true →
    ∃ admitted, s.incoming.get? c.trace = some admitted ∧ admitted.consumer = i
  queued : ∀ frame admitted c, s.running = true → s.waiting = none →
    s.incoming.get? frame.traceId = some admitted → s.consumers[admitted.consumer]? = some c →
    c.channel.receiver = true →
    (s.step cfg (.ended frame)).consumers[admitted.consumer]? =
      some { c with channel := (c.channel.push (Inbound.terminalItem frame.reason)).dropSender }
  invoked : ∀ event, (s.step cfg event).consumers.length ≤ s.consumers.length + 1
  opens : ∀ event, (∀ frame permit now later sent, event ≠ .opened frame permit now later sent) →
    (s.step cfg event).consumers.length = s.consumers.length
  admitted : ∀ frame permit now later sent, (s.incoming.get? frame.traceId).isSome = true →
    (s.step cfg (.opened frame permit now later sent)).consumers.length = s.consumers.length

lemma Consumer.Sound.exact {c : Consumer} {log : List Handled} (h : c.Sound log) :
    c.Exact log where
  read := (List.prefix_append _ _).trans h.delivered
  numbered := by
    intro k frame hframe
    rw [List.getElem?_take] at hframe
    split_ifs at hframe with hk
    refine h.numbered k frame ?_
    rw [List.getElem?_take, if_pos (hk.trans_le (by
      rw [Consumer.delivered, List.length_append]
      exact Nat.le_add_right _ _))]
    exact hframe
  ended := by
    intro hended
    obtain ⟨front, back, frame, hlog, htrace, hreason, hopened, hdelivered⟩ := h.ended hended
    refine ⟨front, back, frame, hlog, htrace, hreason, hopened, ?_⟩
    rw [← hdelivered, Consumer.delivered, (h.settled (Option.isSome_of_eq_some hended)).1]
    exact (List.append_nil _).symm
  terminates := Consumer.poll_terminates _ c le_rfl
  final := Consumer.poll_of_terminal

/-- Every sequence of frames and every drain schedule delivers exactly. -/
theorem incoming_streams_exact (cfg : InboundConfig) (events : List InboundEvent) :
    ExactDelivery cfg (Inbound.run cfg events) := by
  have h := Inbound.sound_run cfg events
  refine ⟨h.bound, ?_, ?_, h.owned, ?_, ?_, fun _ => Inbound.length_step_of_not_open, ?_⟩
  · intro c hc
    obtain ⟨i, hi⟩ := List.mem_iff_getElem?.mp hc
    exact (h.consumers i c hi).exact
  · intro trace admitted hget
    obtain ⟨c, hc, hfed⟩ := h.fed trace admitted hget
    exact ⟨c, hc, hfed.trace, hfed.room⟩
  · intro frame admitted c running idle hget hc live
    obtain ⟨_, hc', hfed⟩ := h.fed _ admitted hget
    obtain rfl := Option.some.inj (hc.symm.trans hc')
    exact Inbound.handleEnd_queues running idle hget hc live hfed.room
  · intro event
    cases event with
    | opened frame permit now later sent =>
      simp only [Inbound.step]
      split_ifs
      · rw [Inbound.length_handleOpen]
        exact Inbound.length_admitOpen.1
      · exact Nat.le_succ _
    | _ =>
      exact (Inbound.length_step_of_not_open fun _ _ _ _ _ h => by cases h).le.trans (Nat.le_succ _)
  · intro frame permit now later sent hadmitted
    simp only [Inbound.step]
    split_ifs
    · rw [Inbound.length_handleOpen]
      exact Inbound.length_admitOpen.2 hadmitted
    · rfl

def sampleInbound : InboundConfig where
  localNode := secondNode
  peer := firstNode
  protocol _ := some ⟨⟨"a.b/features/f".toList, 3, 12, none, by decide +kernel⟩, by decide +kernel⟩
  selected _ := true
  queueMessages := 8
  sha256 _ := Vector.replicate 32 0

def sampleOpen : OpenFrame where
  traceId := Routing.sampleTrace
  source := firstNode
  destination := secondNode
  protocol := Routing.sampleProtocol
  metadata := .new
  route := none

/-- The table forgets a stream that ended, so an identical open after the end is admitted again and
invokes the consumer a second time. -/
theorem retransmission_after_end_invokes_again :
    ∃ cfg frame, (Inbound.run cfg [.opened frame true 0 0 true,
        .ended ⟨frame.traceId, .completed⟩, .opened frame true 1 1 true]).consumers.length = 2 :=
  ⟨sampleInbound, sampleOpen, by decide +kernel⟩

end Radiata.Session
