import Radiata.Session.Inbound

/-!
# Delivery of incoming streams

What a consumer reads is compared with the history of its session: the chunks of its trace that
the read loop handled since the open.  While a stream is admitted, everything handled so far has
been queued, apart from a chunk that waits.  Once it is not, nothing more is queued, so what was
queued stays a prefix of what was sent.
-/

namespace Radiata.Session

open Lib Packet
open List (append_assoc append_nil getElem?_modify length_append mem_cons_self)
open OrdMap (get?_insert_of_ne get?_insert_self)

/-! ## The history of a stream -/

def chunksOf (trace : TraceId) (log : List Handled) : List ChunkFrame :=
  log.filterMap fun
    | .chunk frame => if frame.traceId = trace then some frame else none
    | _ => none

def sequenceAt (n : ℕ) : UInt64 := UInt64.ofNat (min n (2 ^ 64 - 1))

lemma sequenceAt_eq_maxWord {n : ℕ} : sequenceAt n = maxWord ↔ 2 ^ 64 - 1 ≤ n := by
  rw [sequenceAt, ← UInt64.toNat_inj, toNat_maxWord, UInt64.toNat_ofNat_of_lt' (by
    have : min n (2 ^ 64 - 1) ≤ 2 ^ 64 - 1 := min_le_right _ _
    exact lt_of_le_of_lt this (by decide))]
  omega

lemma sequenceAt_succ (n : ℕ) :
    (if sequenceAt n = maxWord then maxWord else sequenceAt n + 1) = sequenceAt (n + 1) := by
  split_ifs with h
  · exact (sequenceAt_eq_maxWord.mpr (by rw [sequenceAt_eq_maxWord] at h; omega)).symm
  · rw [sequenceAt_eq_maxWord, not_le] at h
    rw [sequenceAt, sequenceAt, min_eq_left h.le, min_eq_left (by omega), UInt64.ofNat_add]
    rfl

def Numbered (frames : List ChunkFrame) : Prop :=
  ∀ k frame, frames[k]? = some frame → frame.sequence = sequenceAt k

lemma Numbered.concat {frames : List ChunkFrame} {frame : ChunkFrame} (h : Numbered frames)
    (hframe : frame.sequence = sequenceAt frames.length) : Numbered (frames ++ [frame]) := by
  intro k other hother
  rcases lt_trichotomy k frames.length with hlt | rfl | hgt
  · rw [List.getElem?_append_left hlt] at hother
    exact h k other hother
  · rw [List.getElem?_concat_length] at hother
    rw [← Option.some.inj hother, hframe]
  · rw [List.getElem?_eq_none (by rw [length_append, List.length_singleton]; omega)] at hother
    cases hother

def StreamItem.bytes? : StreamItem → Option (List UInt8)
  | .chunk bytes => some bytes
  | _ => none

variable {c : Consumer} {log : List Handled}

namespace Consumer

def sent (c : Consumer) (log : List Handled) : List ChunkFrame :=
  chunksOf c.trace (log.drop c.opened)

def delivered (c : Consumer) : List (List UInt8) :=
  c.read ++ c.channel.queue.filterMap StreamItem.bytes?

/-- A completed end was handled after the open, and exactly what was sent before it was
delivered. -/
def Completed (c : Consumer) (log : List Handled) : Prop :=
  ∃ front back frame, log = front ++ .ended frame :: back ∧ frame.traceId = c.trace ∧
    frame.reason = .completed ∧ c.opened ≤ front.length ∧
    c.delivered = (c.sent front).map ChunkFrame.bytes

section

variable (h : c.opened ≤ log.length)
include h

lemma sent_concat (handled : Handled) :
    c.sent (log ++ [handled]) = c.sent log ++ chunksOf c.trace [handled] := by
  rw [sent, List.drop_append_of_le_length h, chunksOf, List.filterMap_append]
  rfl

lemma sent_concat_chunk {frame : ChunkFrame} (htrace : frame.traceId = c.trace) :
    c.sent (log ++ [.chunk frame]) = c.sent log ++ [frame] := by
  rw [sent_concat h]
  simp [chunksOf, htrace]

lemma sent_concat_of_ne {handled : Handled}
    (hne : ∀ frame, handled = .chunk frame → frame.traceId ≠ c.trace) :
    c.sent (log ++ [handled]) = c.sent log := by
  rw [sent_concat h]
  cases handled with
  | chunk frame => simp [chunksOf, hne frame rfl]
  | _ => exact append_nil _

end

structure Sound (log : List Handled) (c : Consumer) : Prop where
  opened : c.opened ≤ log.length
  delivered : c.delivered <+: (c.sent log).map ChunkFrame.bytes
  numbered : Numbered ((c.sent log).take c.delivered.length)
  ended : c.terminal = some .ended → c.Completed log
  finish : StreamItem.finish ∈ c.channel.queue → c.Completed log
  chunks : ∀ item ∈ c.channel.queue.dropLast, item.bytes?.isSome = true
  feeding : c.channel.sender = true → ∀ item ∈ c.channel.queue, item.bytes?.isSome = true
  settled : c.terminal.isSome = true → c.channel.queue = [] ∧ c.channel.sender = false

lemma Completed.concat (h : c.Completed log) (handled : Handled) :
    c.Completed (log ++ [handled]) := by
  obtain ⟨front, back, frame, rfl, hrest⟩ := h
  exact ⟨front, back ++ [handled], frame, by rw [append_assoc]; rfl, hrest⟩

lemma Sound.concat (h : c.Sound log) (handled : Handled) : c.Sound (log ++ [handled]) where
  opened := by
    rw [length_append]
    exact h.opened.trans (Nat.le_add_right _ _)
  delivered := by
    rw [sent_concat h.opened, List.map_append]
    exact h.delivered.trans (List.prefix_append _ _)
  numbered := by
    have hle : c.delivered.length ≤ (c.sent log).length := by
      simpa using h.delivered.length_le
    rw [sent_concat h.opened, List.take_append_of_le_length hle]
    exact h.numbered
  ended := fun hterminal => (h.ended hterminal).concat handled
  finish := fun hfinish => (h.finish hfinish).concat handled
  chunks := h.chunks
  feeding := h.feeding
  settled := h.settled

lemma Sound.dropSender (h : c.Sound log) :
    ({ c with channel := c.channel.dropSender } : Consumer).Sound log where
  opened := h.opened
  delivered := h.delivered
  numbered := h.numbered
  ended := h.ended
  finish := h.finish
  chunks := h.chunks
  feeding := nofun
  settled := fun hterminal => ⟨(h.settled hterminal).1, rfl⟩

lemma Sound.release (h : c.Sound log) : c.release.Sound log := by
  have hread : c.release.delivered = c.read := append_nil _
  have hfront : c.release.delivered <+: c.delivered := by
    rw [hread]
    exact List.prefix_append _ _
  refine ⟨h.opened, hfront.trans h.delivered, ?_, ?_, nofun, nofun, nofun, ?_⟩
  · have htake : (c.sent log).take c.release.delivered.length =
        ((c.sent log).take c.delivered.length).take c.release.delivered.length := by
      rw [List.take_take, min_eq_left hfront.length_le]
    show Numbered ((c.sent log).take _)
    rw [htake]
    intro k frame hframe
    rw [List.getElem?_take] at hframe
    split_ifs at hframe
    exact h.numbered k frame hframe
  · intro hterminal
    obtain ⟨front, back, frame, hlog, htrace, hreason, hopened, hdelivered⟩ := h.ended hterminal
    refine ⟨front, back, frame, hlog, htrace, hreason, hopened, ?_⟩
    have hqueue := (h.settled (Option.isSome_of_eq_some hterminal)).1
    rw [hread, ← append_nil c.read]
    exact Eq.trans (by rw [Consumer.delivered, hqueue]; rfl) hdelivered
  · intro hterminal
    exact ⟨rfl, (h.settled hterminal).2⟩

inductive Polls (c : Consumer) : Consumer → Prop
  | waits : Polls c c
  | reads (bytes : List UInt8) (rest : List StreamItem) (running : c.terminal = none)
      (queue : c.channel.queue = .chunk bytes :: rest) :
      Polls c { c with channel := { c.channel with queue := rest }, read := c.read ++ [bytes] }
  | ends (item : StreamItem) (rest : List StreamItem) (running : c.terminal = none)
      (queue : c.channel.queue = item :: rest) (terminal : item.bytes? = none) :
      Polls c
        { c with
          channel := { c.channel with queue := rest }
          terminal := some (if item = .finish then .ended else .interrupted) }
  | closes (running : c.terminal = none) (queue : c.channel.queue = [])
      (sender : c.channel.sender = false) : Polls c { c with terminal := some .interrupted }

lemma polls (c : Consumer) : c.Polls c.poll := by
  obtain ⟨trace, opened, ⟨queue, sender, receiver⟩, read, terminal⟩ := c
  cases terminal with
  | some => exact .waits
  | none =>
    cases receiver with
    | false => exact .waits
    | true =>
      cases queue with
      | nil =>
        cases sender with
        | true => exact .waits
        | false => exact .closes rfl rfl rfl
      | cons item rest =>
        cases item with
        | chunk bytes => exact .reads bytes rest rfl rfl
        | finish => exact .ends .finish rest rfl rfl rfl
        | interrupted => exact .ends .interrupted rest rfl rfl rfl

variable {c' : Consumer}

lemma Polls.delivered (h : c.Polls c') : c'.delivered = c.delivered := by
  cases h with
  | waits | closes => rfl
  | reads bytes rest _ queue =>
    rw [Consumer.delivered, Consumer.delivered, queue, append_assoc]
    rfl
  | ends item rest _ queue terminal =>
    rw [Consumer.delivered, Consumer.delivered, queue, List.filterMap_cons_none terminal]

lemma Polls.keeps (h : c.Polls c') :
    c'.trace = c.trace ∧ c'.opened = c.opened ∧ c'.channel.sender = c.channel.sender ∧
      c'.channel.receiver = c.channel.receiver ∧
      c'.channel.queue.length ≤ c.channel.queue.length := by
  cases h with
  | waits | closes => exact ⟨rfl, rfl, rfl, rfl, le_rfl⟩
  | reads _ rest _ queue | ends _ rest _ queue =>
    exact ⟨rfl, rfl, rfl, rfl, by rw [queue]; exact Nat.le_succ _⟩

lemma Completed.congr (h : c.Completed log) (htrace : c'.trace = c.trace)
    (hopened : c'.opened = c.opened) (hdelivered : c'.delivered = c.delivered) :
    c'.Completed log := by
  obtain ⟨front, back, frame, hlog, hframe, hreason, hlength, hsent⟩ := h
  refine ⟨front, back, frame, hlog, hframe.trans htrace.symm, hreason, hopened ▸ hlength, ?_⟩
  rw [hdelivered, hsent, sent, sent, htrace, hopened]

lemma mem_dropLast_cons {item other : StreamItem} {rest : List StreamItem}
    (h : other ∈ rest.dropLast) : other ∈ (item :: rest).dropLast := by
  cases rest with
  | nil => cases h
  | cons => exact List.mem_cons_of_mem _ h

lemma Polls.sound (h : c.Polls c') (sound : c.Sound log) : c'.Sound log := by
  have hdelivered := h.delivered
  cases h with
  | waits => exact sound
  | closes running queue sender =>
    exact ⟨sound.opened, sound.delivered, sound.numbered, nofun, sound.finish, sound.chunks,
      sound.feeding, fun _ => ⟨queue, sender⟩⟩
  | reads bytes rest running queue =>
    refine ⟨sound.opened, ?_, ?_, ?_, ?_, ?_, ?_, ?_⟩
    · rw [hdelivered]
      exact sound.delivered
    · rw [hdelivered]
      exact sound.numbered
    · intro hterminal
      exact absurd (running.symm.trans hterminal) nofun
    · intro hfinish
      have hmem : StreamItem.finish ∈ c.channel.queue := by
        rw [queue]
        exact List.mem_cons_of_mem _ hfinish
      exact (sound.finish hmem).congr rfl rfl hdelivered
    · intro item hitem
      exact sound.chunks item (by rw [queue]; exact mem_dropLast_cons hitem)
    · intro hsender item hitem
      exact sound.feeding hsender item (by rw [queue]; exact List.mem_cons_of_mem _ hitem)
    · intro hterminal
      rw [running] at hterminal
      cases hterminal
  | ends item rest running queue terminal =>
    have hrest : rest = [] := by
      cases rest with
      | nil => rfl
      | cons other rest =>
        have hchunk := sound.chunks item (by rw [queue]; exact mem_cons_self)
        rw [terminal] at hchunk
        cases hchunk
    subst hrest
    refine ⟨sound.opened, ?_, ?_, ?_, nofun, nofun, fun _ => nofun, ?_⟩
    · rw [hdelivered]
      exact sound.delivered
    · rw [hdelivered]
      exact sound.numbered
    · intro hended
      have hitem : item = .finish := by
        by_contra hne
        rw [if_neg hne] at hended
        cases hended
      exact (sound.finish (by rw [queue, hitem]; exact mem_cons_self)).congr rfl rfl hdelivered
    · intro _
      refine ⟨rfl, ?_⟩
      by_contra hsender
      have hchunk := sound.feeding (Bool.eq_true_of_not_eq_false hsender) item
        (by rw [queue]; exact mem_cons_self)
      rw [terminal] at hchunk
      cases hchunk

end Consumer

/-! ## The table of admitted streams -/

namespace Inbound

def pending (s : Inbound) (trace : TraceId) : List (List UInt8) :=
  match s.waiting with
  | some frame => if frame.traceId = trace then [frame.bytes] else []
  | none => []

/-- An admitted stream feeds its consumer: the window has room for the terminal, the next sequence
number is the one after those sent, and all that was sent is delivered or waits. -/
structure Feeds (log : List Handled) (pending : List (List UInt8)) (t : TraceId)
    (admitted : AdmittedStream) (c : Consumer) : Prop where
  trace : c.trace = t
  sender : c.channel.sender = true
  room : c.channel.queue.length ≤ incomingStreamChunks
  next : admitted.nextSequence = sequenceAt (c.sent log).length
  numbered : Numbered (c.sent log)
  complete : c.channel.receiver = true →
    c.delivered ++ pending = (c.sent log).map ChunkFrame.bytes

structure Sound (cfg : InboundConfig) (s : Inbound) : Prop where
  bound : s.incoming.entries.length ≤ cfg.queueMessages
  consumers : ∀ (i : ℕ) (c : Consumer), s.consumers[i]? = some c → c.Sound s.log
  fed : ∀ trace admitted, s.incoming.get? trace = some admitted →
    ∃ c, s.consumers[admitted.consumer]? = some c ∧ Feeds s.log (s.pending trace) trace admitted c
  owned : ∀ (i : ℕ) (c : Consumer), s.consumers[i]? = some c → c.channel.sender = true →
    ∃ admitted, s.incoming.get? c.trace = some admitted ∧ admitted.consumer = i
  waits : ∀ frame, s.waiting = some frame → (s.incoming.get? frame.traceId).isSome = true
  stopped : s.running = false → s.waiting = none ∧ s.incoming = .empty

variable {cfg : InboundConfig} {s : Inbound}

lemma Sound.start : (Inbound.start).Sound cfg where
  bound := Nat.zero_le _
  consumers := nofun
  fed := nofun
  owned := nofun
  waits := nofun
  stopped := nofun

lemma Sound.modify (h : s.Sound cfg) (i : ℕ) {f : Consumer → Consumer}
    (hsound : ∀ c, c.Sound s.log → (f c).Sound s.log) (htrace : ∀ c, (f c).trace = c.trace)
    (hsender : ∀ c, (f c).channel.sender = c.channel.sender)
    (hfeeds : ∀ pending trace admitted c, Feeds s.log pending trace admitted c →
      Feeds s.log pending trace admitted (f c)) :
    ({ s with consumers := s.consumers.modify i f } : Inbound).Sound cfg := by
  have hget : ∀ (j : ℕ) (c' : Consumer), (s.consumers.modify i f)[j]? = some c' →
      ∃ c, s.consumers[j]? = some c ∧ (c' = c ∨ c' = f c) := by
    intro j c' hc'
    rw [getElem?_modify, Option.map_eq_map, Option.map_eq_some_iff] at hc'
    obtain ⟨c, hc, rfl⟩ := hc'
    refine ⟨c, hc, ?_⟩
    split_ifs
    · exact .inr rfl
    · exact .inl rfl
  refine ⟨h.bound, ?_, ?_, ?_, h.waits, h.stopped⟩
  · intro j c' hc'
    obtain ⟨c, hc, rfl | rfl⟩ := hget j c' hc'
    · exact h.consumers j c' hc
    · exact hsound c (h.consumers j c hc)
  · intro trace admitted hadmitted
    obtain ⟨c, hc, hfed⟩ := h.fed trace admitted hadmitted
    refine ⟨if i = admitted.consumer then f c else c, ?_, ?_⟩
    · show (s.consumers.modify i f)[admitted.consumer]? = _
      rw [getElem?_modify, hc]
      split_ifs <;> rfl
    · split_ifs
      · exact hfeeds _ trace admitted c hfed
      · exact hfed
  · intro j c' hc' hsend
    obtain ⟨c, hc, rfl | rfl⟩ := hget j c' hc'
    · exact h.owned j c' hc hsend
    · rw [hsender] at hsend
      rw [htrace]
      exact h.owned j c hc hsend

variable {pending : List (List UInt8)} {trace : TraceId} {admitted : AdmittedStream}

lemma Feeds.congr {c' : Consumer} (h : Feeds log pending trace admitted c)
    (htrace : c'.trace = c.trace) (hopened : c'.opened = c.opened)
    (hsender : c'.channel.sender = c.channel.sender)
    (hqueue : c'.channel.queue.length ≤ c.channel.queue.length)
    (hdelivered : c'.channel.receiver = true → c.channel.receiver = true ∧ c'.delivered =
      c.delivered) : Feeds log pending trace admitted c' := by
  have hsent : c'.sent log = c.sent log := by
    rw [Consumer.sent, Consumer.sent, htrace, hopened]
  refine ⟨htrace.trans h.trace, hsender.trans h.sender, hqueue.trans h.room, ?_, ?_, ?_⟩
  · rw [hsent]
    exact h.next
  · rw [hsent]
    exact h.numbered
  · intro hreceiver
    obtain ⟨hlive, heq⟩ := hdelivered hreceiver
    rw [heq, hsent]
    exact h.complete hlive

lemma Sound.polls (h : s.Sound cfg) (i : ℕ) :
    ({ s with consumers := s.consumers.modify i Consumer.poll } : Inbound).Sound cfg := by
  refine h.modify i (fun c hc => c.polls.sound hc) (fun c => c.polls.keeps.1)
    (fun c => c.polls.keeps.2.2.1) ?_
  intro pending trace admitted c hfed
  obtain ⟨htrace, hopened, hsender, hreceiver, hqueue⟩ := c.polls.keeps
  exact hfed.congr htrace hopened hsender hqueue
    fun hlive => ⟨hreceiver ▸ hlive, c.polls.delivered⟩

lemma Sound.releases (h : s.Sound cfg) (i : ℕ) :
    ({ s with consumers := s.consumers.modify i Consumer.release } : Inbound).Sound cfg := by
  refine h.modify i (fun c hc => hc.release) (fun _ => rfl) (fun _ => rfl) ?_
  intro pending trace admitted c hfed
  exact hfed.congr rfl rfl rfl (Nat.zero_le _) nofun

variable {frame : ChunkFrame}

lemma pending_self (h : s.waiting = some frame) : s.pending frame.traceId = [frame.bytes] := by
  rw [pending, h]
  exact if_pos rfl

lemma pending_of_ne (h : s.waiting = some frame) (hne : trace ≠ frame.traceId) :
    s.pending trace = [] := by
  rw [pending, h]
  exact if_neg hne.symm

lemma pending_of_idle (h : s.waiting = none) : s.pending trace = [] := by
  rw [pending, h]

lemma Feeds.skip {log' : List Handled} (h : Feeds log pending trace admitted c)
    (hsent : c.sent log' = c.sent log) : Feeds log' pending trace admitted c := by
  refine ⟨h.trace, h.sender, h.room, ?_, ?_, ?_⟩
  · rw [hsent]
    exact h.next
  · rw [hsent]
    exact h.numbered
  · rw [hsent]
    exact h.complete

lemma Feeds.advance (h : Feeds log [] frame.traceId admitted c) (hopened : c.opened ≤ log.length)
    (hsequence : admitted.nextSequence = frame.sequence) (grace : Bool) :
    Feeds (log ++ [.chunk frame]) [frame.bytes] frame.traceId
      { admitted.count with drainGraceSpent := grace } c := by
  have hsent : c.sent (log ++ [.chunk frame]) = c.sent log ++ [frame] :=
    Consumer.sent_concat_chunk hopened h.trace.symm
  refine ⟨h.trace, h.sender, h.room, ?_, ?_, ?_⟩
  · rw [hsent, length_append, List.length_singleton, ← sequenceAt_succ, ← h.next]
    rfl
  · rw [hsent]
    exact h.numbered.concat (hsequence.symm.trans h.next)
  · intro hreceiver
    have hcomplete := h.complete hreceiver
    rw [append_nil] at hcomplete
    rw [hsent, List.map_append, hcomplete]
    rfl

lemma Sound.concat (h : s.Sound cfg) (handled : Handled)
    (hne : ∀ frame, handled = .chunk frame → s.incoming.get? frame.traceId = none) :
    (s.record handled).Sound cfg := by
  refine ⟨h.bound, fun i c hc => (h.consumers i c hc).concat handled, ?_, h.owned, h.waits,
    h.stopped⟩
  intro trace admitted hadmitted
  obtain ⟨c, hc, hfed⟩ := h.fed trace admitted hadmitted
  refine ⟨c, hc, hfed.skip ?_⟩
  refine Consumer.sent_concat_of_ne (h.consumers _ c hc).opened fun frame hframe htrace => ?_
  have hnone := hne frame hframe
  rw [htrace, hfed.trace] at hnone
  cases hnone.symm.trans hadmitted

lemma Sound.count (h : s.Sound cfg) (running : s.running = true) (idle : s.waiting = none)
    (hget : s.incoming.get? frame.traceId = some admitted)
    (hsequence : admitted.nextSequence = frame.sequence) (grace : Bool) :
    ({ (s.record (.chunk frame)).setStream frame.traceId
          { admitted.count with drainGraceSpent := grace } with
        waiting := some frame } : Inbound).Sound cfg := by
  refine ⟨?_, fun i c hc => (h.consumers i c hc).concat _, ?_, ?_, ?_, ?_⟩
  · exact (OrdMap.length_insert_of_get? hget).le.trans h.bound
  · intro trace next hnext
    by_cases htrace : trace = frame.traceId
    · subst htrace
      obtain rfl := Option.some.inj (OrdMap.get?_insert_self.symm.trans hnext)
      obtain ⟨c, hc, hfed⟩ := h.fed _ admitted hget
      rw [pending_of_idle idle] at hfed
      refine ⟨c, hc, ?_⟩
      rw [pending_self rfl]
      exact hfed.advance (h.consumers _ c hc).opened hsequence grace
    · have hold : s.incoming.get? trace = some next :=
        (get?_insert_of_ne htrace).symm.trans hnext
      obtain ⟨c, hc, hfed⟩ := h.fed trace next hold
      rw [pending_of_idle idle] at hfed
      refine ⟨c, hc, ?_⟩
      rw [pending_of_ne rfl htrace]
      refine hfed.skip (Consumer.sent_concat_of_ne (h.consumers _ c hc).opened ?_)
      intro other hother heq
      obtain rfl := Handled.chunk.inj hother
      exact htrace (hfed.trace.symm.trans heq.symm)
  · intro i c hc hsender
    obtain ⟨owner, howner, hi⟩ := h.owned i c hc hsender
    by_cases htrace : c.trace = frame.traceId
    · rw [htrace, hget] at howner
      obtain rfl := Option.some.inj howner
      exact ⟨{ admitted.count with drainGraceSpent := grace },
        by rw [htrace]; exact get?_insert_self, hi⟩
    · exact ⟨owner, (get?_insert_of_ne htrace).trans howner, hi⟩
  · intro other hother
    obtain rfl := Option.some.inj hother
    exact Option.isSome_of_eq_some get?_insert_self
  · intro hstopped
    exact absurd (running.symm.trans hstopped) nofun

variable {i : ℕ}

lemma Sound.terminal_eq_none (h : s.Sound cfg) (hc : s.consumers[i]? = some c)
    (hsender : c.channel.sender = true) : c.terminal = none := by
  by_contra hterminal
  have hsettled := (h.consumers i c hc).settled (Option.isSome_iff_ne_none.mpr hterminal)
  rw [hsender] at hsettled
  cases hsettled.2

variable {channel : Channel StreamItem}

lemma getElem?_setChannel {j : ℕ} (h : (s.setChannel i channel).consumers[j]? = some c) :
    (i = j ∧ ∃ old, s.consumers[j]? = some old ∧ c = { old with channel := channel }) ∨
      i ≠ j ∧ s.consumers[j]? = some c := by
  rw [setChannel, getElem?_modify, Option.map_eq_map, Option.map_eq_some_iff] at h
  obtain ⟨old, hold, rfl⟩ := h
  by_cases hij : i = j
  · exact .inl ⟨hij, old, hold, by rw [if_pos hij]⟩
  · exact .inr ⟨hij, by rw [if_neg hij]; exact hold⟩

lemma setChannel_self (h : s.consumers[i]? = some c) :
    (s.setChannel i channel).consumers[i]? = some { c with channel := channel } := by
  rw [setChannel, getElem?_modify, h]
  exact congrArg some (if_pos rfl)

lemma setChannel_of_ne {j : ℕ} (h : i ≠ j) :
    (s.setChannel i channel).consumers[j]? = s.consumers[j]? := by
  rw [setChannel, getElem?_modify]
  simp [h]

section

variable (h : s.Sound cfg)
include h

lemma Sound.push (waiting : s.waiting = some frame)
    (hget : s.incoming.get? frame.traceId = some admitted)
    (hc : s.consumers[admitted.consumer]? = some c) (live : c.channel.receiver = true)
    (room : c.channel.queue.length < incomingStreamChunks) :
    ({ s.setChannel admitted.consumer (c.channel.push (.chunk frame.bytes)) with
        waiting := none } : Inbound).Sound cfg := by
  obtain ⟨_, hc', hfed⟩ := h.fed _ admitted hget
  obtain rfl := Option.some.inj (hc.symm.trans hc')
  have hsound := h.consumers _ c hc
  have hcomplete : c.delivered ++ [frame.bytes] = (c.sent s.log).map ChunkFrame.bytes := by
    rw [← pending_self waiting]
    exact hfed.complete live
  -- the consumer with the chunk at the end of its queue
  let pushed : Consumer := { c with channel := c.channel.push (.chunk frame.bytes) }
  have hdelivered : pushed.delivered = c.delivered ++ [frame.bytes] := by
    show c.read ++ (c.channel.queue ++ [StreamItem.chunk frame.bytes]).filterMap StreamItem.bytes? =
      _
    rw [List.filterMap_append, ← append_assoc]
    rfl
  have hpushed : pushed.Sound s.log := by
    refine ⟨hsound.opened, ?_, ?_, ?_, ?_, ?_, ?_, ?_⟩
    · rw [hdelivered, hcomplete]
      exact List.prefix_rfl
    · rw [hdelivered, hcomplete, List.length_map]
      exact (List.take_length (l := c.sent s.log)).symm ▸ hfed.numbered
    · intro hended
      exact absurd ((h.terminal_eq_none hc hfed.sender).symm.trans hended) nofun
    · intro hfinish
      rcases List.mem_append.mp hfinish with hold | hnew
      · exact absurd (hsound.feeding hfed.sender _ hold) nofun
      · cases List.mem_singleton.mp hnew
    · show ∀ item ∈ (c.channel.queue ++ [StreamItem.chunk frame.bytes]).dropLast, _
      rw [List.dropLast_concat]
      exact hsound.feeding hfed.sender
    · intro _ item hitem
      rcases List.mem_append.mp hitem with hold | hnew
      · exact hsound.feeding hfed.sender item hold
      · rw [List.mem_singleton.mp hnew]
        rfl
    · intro hterminal
      rw [show pushed.terminal = c.terminal from rfl,
        h.terminal_eq_none hc hfed.sender] at hterminal
      cases hterminal
  refine ⟨h.bound, ?_, ?_, ?_, nofun, fun hstopped => ⟨rfl, (h.stopped hstopped).2⟩⟩
  · intro i other hother
    rcases getElem?_setChannel hother with ⟨rfl, old, hold, rfl⟩ | ⟨-, hold⟩
    · obtain rfl := Option.some.inj (hc.symm.trans hold)
      exact hpushed
    · exact h.consumers i other hold
  · intro trace next hnext
    by_cases htrace : trace = frame.traceId
    · subst htrace
      obtain rfl := Option.some.inj (hget.symm.trans hnext)
      refine ⟨pushed, setChannel_self hc, hfed.trace, hfed.sender, ?_, hfed.next, hfed.numbered, ?_⟩
      · show (c.channel.queue ++ [StreamItem.chunk frame.bytes]).length ≤ _
        rw [length_append]
        exact room
      · intro _
        rw [hdelivered]
        exact (append_nil _).trans hcomplete
    · obtain ⟨other, hother, hfeeds⟩ := h.fed trace next hnext
      have hne : admitted.consumer ≠ next.consumer := by
        intro heq
        rw [← heq, hc] at hother
        obtain rfl := Option.some.inj hother
        exact htrace (hfeeds.trace.symm.trans hfed.trace)
      refine ⟨other, (setChannel_of_ne hne).trans hother,
        { hfeeds with complete := fun hreceiver => ?_ }⟩
      have hcomplete := hfeeds.complete hreceiver
      rw [pending_of_ne waiting htrace] at hcomplete
      exact hcomplete
  · intro i other hother hsender
    rcases getElem?_setChannel hother with ⟨rfl, old, hold, rfl⟩ | ⟨-, hold⟩
    · exact h.owned _ old hold (by
        obtain rfl := Option.some.inj (hc.symm.trans hold)
        exact hfed.sender)
    · exact h.owned i other hold hsender

lemma Sound.finish (channel : Channel StreamItem) (acks : List AckFrame)
    (hget : s.incoming.get? trace = some admitted) (hc : s.consumers[admitted.consumer]? = some c)
    (hwaiting : ∀ frame, s.waiting = some frame → frame.traceId = trace)
    (hchannel : ({ c with channel := channel } : Consumer).Sound s.log)
    (hsender : channel.sender = false) :
    ({ (s.remove trace).setChannel admitted.consumer channel with
        waiting := none, acks := acks } : Inbound).Sound cfg := by
  obtain ⟨_, hc', hfed⟩ := h.fed trace admitted hget
  obtain rfl := Option.some.inj (hc.symm.trans hc')
  refine ⟨OrdMap.length_erase_le.trans h.bound, ?_, ?_, ?_, nofun, ?_⟩
  · intro i other hother
    rcases getElem?_setChannel (s := s.remove trace) hother with ⟨rfl, old, hold, rfl⟩ | ⟨-, hold⟩
    · obtain rfl := Option.some.inj (hc.symm.trans hold)
      exact hchannel
    · exact h.consumers i other hold
  · intro other next hnext
    have hne : other ≠ trace := by
      rintro rfl
      cases OrdMap.get?_erase_self.symm.trans hnext
    obtain ⟨d, hd, hfeeds⟩ := h.fed other next ((OrdMap.get?_erase_of_ne hne).symm.trans hnext)
    have hindex : admitted.consumer ≠ next.consumer := by
      intro heq
      rw [← heq, hc] at hd
      obtain rfl := Option.some.inj hd
      exact hne (hfeeds.trace.symm.trans hfed.trace)
    refine ⟨d, (setChannel_of_ne (s := s.remove trace) hindex).trans hd,
      { hfeeds with complete := fun hreceiver => ?_ }⟩
    have hcomplete := hfeeds.complete hreceiver
    have hpending : s.pending other = [] := by
      cases hw : s.waiting with
      | none => rw [pending, hw]
      | some frame => exact pending_of_ne hw (by rw [hwaiting frame hw]; exact hne)
    rw [hpending] at hcomplete
    exact hcomplete
  · intro i other hother hsend
    rcases getElem?_setChannel (s := s.remove trace) hother with ⟨rfl, old, hold, rfl⟩ | ⟨hi, hold⟩
    · exact absurd (hsender.symm.trans hsend) nofun
    · obtain ⟨owner, howner, rfl⟩ := h.owned i other hold hsend
      have hne : other.trace ≠ trace := by
        intro heq
        rw [heq, hget] at howner
        exact hi (congrArg AdmittedStream.consumer (Option.some.inj howner))
      exact ⟨owner, (OrdMap.get?_erase_of_ne hne).trans howner, rfl⟩
  · intro hstopped
    rw [(h.stopped hstopped).2] at hget
    cases hget

lemma Sound.terminate (hget : s.incoming.get? trace = some admitted)
    (hc : s.consumers[admitted.consumer]? = some c)
    (hwaiting : ∀ frame, s.waiting = some frame → frame.traceId = trace) :
    (s.terminate trace admitted c.channel).Sound cfg :=
  h.finish _ _ hget hc hwaiting (h.consumers _ c hc).dropSender rfl

lemma Sound.queueChunk (waiting : s.waiting = some frame)
    (hget : s.incoming.get? frame.traceId = some admitted)
    (hc : s.consumers[admitted.consumer]? = some c)
    (room : incomingStreamTerminalSlots < c.channel.capacity incomingSlots) :
    (s.queueChunk frame admitted c.channel).Sound cfg := by
  have hlength : c.channel.queue.length < incomingStreamChunks := by
    unfold Channel.capacity incomingSlots at room
    omega
  unfold Inbound.queueChunk
  cases hlive : c.channel.receiver with
  | true =>
    have hslots : c.channel.queue.length < incomingSlots := Nat.lt_add_right _ hlength
    rw [Channel.trySend_of_room hlive hslots]
    exact h.push waiting hget hc hlive hlength
  | false =>
    rw [Channel.trySend_of_gone hlive]
    refine h.terminate hget hc fun other hother => ?_
    rw [Option.some.inj (waiting.symm.trans hother)]

lemma Sound.wake (elapsed : Bool) : (s.wake elapsed).Sound cfg := by
  unfold Inbound.wake
  cases hwaiting : s.waiting with
  | none => exact h
  | some frame =>
    obtain ⟨admitted, hget⟩ := Option.isSome_iff_exists.mp (h.waits frame hwaiting)
    obtain ⟨c, hc, -⟩ := h.fed _ admitted hget
    have hchannel : s.channel admitted = some c.channel := by
      rw [channel, hc]
      rfl
    simp only [hget, hchannel]
    split_ifs with hgone hroom
    · refine h.terminate hget hc fun other hother => ?_
      rw [Option.some.inj (hwaiting.symm.trans hother)]
    · exact h.queueChunk hwaiting hget hc hroom
    · exact h

end

lemma sound_close (h : ∀ (i : ℕ) (c : Consumer), s.consumers[i]? = some c → c.Sound s.log) :
    s.close.Sound cfg := by
  have hget : ∀ (i : ℕ) (c : Consumer), s.close.consumers[i]? = some c →
      ∃ old, s.consumers[i]? = some old ∧ c = { old with channel := old.channel.dropSender } := by
    intro i c hc
    rw [close, List.getElem?_map, Option.map_eq_some_iff] at hc
    obtain ⟨old, hold, rfl⟩ := hc
    exact ⟨old, hold, rfl⟩
  refine ⟨Nat.zero_le _, ?_, nofun, ?_, nofun, fun _ => ⟨rfl, rfl⟩⟩
  · intro i c hc
    obtain ⟨old, hold, rfl⟩ := hget i c hc
    exact (h i old hold).dropSender
  · intro i c hc hsender
    obtain ⟨old, -, rfl⟩ := hget i c hc
    cases hsender

lemma queueChunk_waiting {waiting : Option ChunkFrame} :
    ({ s with waiting := waiting } : Inbound).queueChunk frame admitted channel =
      s.queueChunk frame admitted channel := by
  unfold queueChunk
  split <;> rfl

lemma Sound.chunk (h : s.Sound cfg) (frame : ChunkFrame) (running : s.running = true)
    (idle : s.waiting = none) : ((s.record (.chunk frame)).forwardChunk frame).Sound cfg := by
  unfold forwardChunk
  cases hget : (s.record (.chunk frame)).incoming.get? frame.traceId with
  | none =>
    refine h.concat _ fun other hother => ?_
    rw [← Handled.chunk.inj hother]
    exact hget
  | some admitted =>
    obtain ⟨c, hc, -⟩ := h.fed _ admitted hget
    have hchannel : (s.record (.chunk frame)).channel admitted = some c.channel := by
      rw [channel, show (s.record (.chunk frame)).consumers = s.consumers from rfl, hc]
      rfl
    simp only [hchannel]
    split_ifs with hsequence hroom hgrace
    · exact sound_close fun i d hd => (h.consumers i d hd).concat _
    · -- the chunk is counted as if it waited, and queued at once
      have hcount := h.count running idle hget (not_not.mp hsequence) admitted.drainGraceSpent
      have hqueue := hcount.queueChunk rfl get?_insert_self hc hroom
      rw [queueChunk_waiting] at hqueue
      exact hqueue
    · have hcount := h.count running idle hget (not_not.mp hsequence) admitted.drainGraceSpent
      exact hcount.terminate get?_insert_self hc fun other hother => by
        rw [← Option.some.inj hother]
    · exact h.count running idle hget (not_not.mp hsequence) true

lemma Feeds.sound_terminal {frame : EndFrame} (h : Feeds s.log [] frame.traceId admitted c)
    (hsound : c.Sound s.log) (live : c.channel.receiver = true) (terminal : c.terminal = none) :
    ({ c with channel := (c.channel.push (terminalItem frame.reason)).dropSender } : Consumer).Sound
      (s.log ++ [.ended frame]) := by
  have hitem : (terminalItem frame.reason).bytes? = none := by
    cases frame.reason <;> rfl
  let ending : Consumer :=
    { c with channel := (c.channel.push (terminalItem frame.reason)).dropSender }
  have hdelivered : ending.delivered = c.delivered := by
    show c.read ++ (c.channel.queue ++ [terminalItem frame.reason]).filterMap StreamItem.bytes? = _
    rw [List.filterMap_append, List.filterMap_cons_none hitem, List.filterMap_nil, append_nil]
    rfl
  have hconcat := hsound.concat (.ended frame)
  refine ⟨hconcat.opened, ?_, ?_, ?_, ?_, ?_, nofun, ?_⟩
  · rw [hdelivered]
    exact hconcat.delivered
  · rw [hdelivered]
    exact hconcat.numbered
  · intro hended
    exact absurd (terminal.symm.trans hended) nofun
  · intro hfinish
    have hreason : frame.reason = .completed := by
      rcases List.mem_append.mp hfinish with hold | hnew
      · exact absurd (hsound.feeding h.sender _ hold) nofun
      · cases hreason : frame.reason with
        | completed => rfl
        | interrupted =>
          rw [hreason] at hnew
          cases List.mem_singleton.mp hnew
    refine ⟨s.log, [], frame, rfl, h.trace.symm, hreason, hsound.opened, ?_⟩
    rw [hdelivered, ← append_nil c.delivered]
    exact h.complete live
  · show ∀ item ∈ (c.channel.queue ++ [terminalItem frame.reason]).dropLast, _
    rw [List.dropLast_concat]
    exact hsound.feeding h.sender
  · intro hterminal
    rw [show ending.terminal = c.terminal from rfl, terminal] at hterminal
    cases hterminal

lemma Sound.ended (h : s.Sound cfg) (frame : EndFrame) (idle : s.waiting = none) :
    ((s.record (.ended frame)).handleEnd frame).Sound cfg := by
  have hconcat := h.concat (.ended frame) nofun
  unfold handleEnd
  cases hget : (s.record (.ended frame)).incoming.get? frame.traceId with
  | none => exact hconcat
  | some admitted =>
    obtain ⟨c, hc, hfed⟩ := h.fed _ admitted hget
    have hchannel : (s.record (.ended frame)).channel admitted = some c.channel := by
      rw [channel, show (s.record (.ended frame)).consumers = s.consumers from rfl, hc]
      rfl
    rw [pending_of_idle idle] at hfed
    simp only [hchannel]
    have hwaiting : ∀ other, s.waiting = some other → other.traceId = frame.traceId := by
      rw [idle]
      exact nofun
    have hfinish {channel : Channel StreamItem} :=
      hconcat.finish channel s.acks hget hc hwaiting
    rw [← idle] at hfinish
    cases hlive : c.channel.receiver with
    | true =>
      have hslots : c.channel.queue.length < incomingSlots := Nat.lt_succ_of_le hfed.room
      rw [Channel.trySend_of_room hlive hslots, Option.getD_some]
      exact hfinish (hfed.sound_terminal (h.consumers _ c hc) hlive
        (h.terminal_eq_none hc hfed.sender)) rfl
    | false =>
      rw [Channel.trySend_of_gone hlive, Option.getD_none]
      exact hfinish (hconcat.consumers _ c hc).dropSender rfl

lemma sent_of_drop_nil (h : c.opened = log.length) : c.sent log = [] := by
  rw [Consumer.sent, h, List.drop_length]
  rfl

lemma sound_fresh (trace : TraceId) (log : List Handled) :
    (⟨trace, log.length, .fresh, [], none⟩ : Consumer).Sound log := by
  have hsent : (⟨trace, log.length, .fresh, [], none⟩ : Consumer).sent log = [] :=
    sent_of_drop_nil rfl
  refine ⟨le_rfl, ?_, ?_, nofun, nofun, nofun, fun _ => nofun, nofun⟩
  · rw [hsent]
    exact List.prefix_rfl
  · rw [hsent]
    exact nofun

section

variable (h : s.Sound cfg)
include h

section

variable (running : s.running = true)
include running

lemma Sound.admission {context : Digest} {now : ℤ} (hget : s.incoming.get? trace = none)
    (room : s.incoming.entries.length < cfg.queueMessages) : ({ s with
        incoming := s.incoming.insert trace ⟨s.consumers.length, 0, context, now, false⟩
        consumers := s.consumers ++ [⟨trace, s.log.length, .fresh, [], none⟩] } : Inbound).Sound
      cfg := by
  have hget' : ∀ (i : ℕ) (c : Consumer),
      (s.consumers ++ [⟨trace, s.log.length, .fresh, [], none⟩])[i]? = some c →
        s.consumers[i]? = some c ∨
          i = s.consumers.length ∧ c = ⟨trace, s.log.length, .fresh, [], none⟩ := by
    intro i c hc
    rcases lt_trichotomy i s.consumers.length with hlt | rfl | hgt
    · rw [List.getElem?_append_left hlt] at hc
      exact .inl hc
    · rw [List.getElem?_concat_length] at hc
      exact .inr ⟨rfl, (Option.some.inj hc).symm⟩
    · rw [List.getElem?_eq_none (by rw [length_append, List.length_singleton]; omega)] at hc
      cases hc
  refine ⟨OrdMap.length_insert_le.trans room, ?_, ?_, ?_, ?_, ?_⟩
  · intro i c hc
    rcases hget' i c hc with hold | ⟨-, rfl⟩
    · exact h.consumers i c hold
    · exact sound_fresh trace s.log
  · intro other admitted hadmitted
    by_cases hother : other = trace
    · subst hother
      obtain rfl := Option.some.inj (OrdMap.get?_insert_self.symm.trans hadmitted)
      have hsent : (⟨other, s.log.length, .fresh, [], none⟩ : Consumer).sent s.log = [] :=
        sent_of_drop_nil rfl
      refine ⟨_, List.getElem?_concat_length, rfl, rfl, Nat.zero_le _, ?_, ?_, ?_⟩
      · rw [hsent]
        rfl
      · rw [hsent]
        exact nofun
      · intro _
        have hpending : s.pending other = [] := by
          cases hw : s.waiting with
          | none => exact pending_of_idle hw
          | some frame =>
            refine pending_of_ne hw fun heq => ?_
            have hwaits := h.waits frame hw
            rw [← heq, hget] at hwaits
            cases hwaits
        rw [hsent]
        exact hpending
    · have hold := (get?_insert_of_ne hother).symm.trans hadmitted
      obtain ⟨c, hc, hfed⟩ := h.fed other admitted hold
      exact ⟨c, (List.getElem?_append_left (List.getElem?_eq_some_iff.mp hc).1).trans hc, hfed⟩
  · intro i c hc hsender
    rcases hget' i c hc with hold | ⟨rfl, rfl⟩
    · obtain ⟨owner, howner, hi⟩ := h.owned i c hold hsender
      have hne : c.trace ≠ trace := by
        intro heq
        rw [heq, hget] at howner
        cases howner
      exact ⟨owner, (get?_insert_of_ne hne).trans howner, hi⟩
    · exact ⟨_, get?_insert_self, rfl⟩
  · intro frame hframe
    obtain ⟨admitted, hadmitted⟩ := Option.isSome_iff_exists.mp (h.waits frame hframe)
    have hne : frame.traceId ≠ trace := by
      intro heq
      rw [heq, hget] at hadmitted
      cases hadmitted
    exact Option.isSome_of_eq_some ((get?_insert_of_ne hne).trans hadmitted)
  · intro hstopped
    exact absurd (running.symm.trans hstopped) nofun

variable (frame : OpenFrame) (permit : Bool)

lemma Sound.admitStream (now later : ℤ) :
    (s.admitStream cfg frame permit now later).1.Sound cfg := by
  unfold Inbound.admitStream
  cases hget : s.incoming.get? frame.traceId with
  | some admitted =>
    dsimp only
    split_ifs <;> exact h
  | none =>
    dsimp only
    split_ifs with hprotocol hbound hpermit
    · exact h
    · exact h
    · exact h
    · exact h.admission running hget (not_le.mp hbound)

lemma Sound.admitOpen (now later : ℤ) : (s.admitOpen cfg frame permit now later).1.Sound cfg := by
  unfold Inbound.admitOpen
  split
  · exact h.admitStream running frame permit now later
  · exact h

lemma Sound.handleOpen (now later : ℤ) (sent : Bool) :
    (s.handleOpen cfg frame permit now later sent).Sound cfg := by
  have hadmitted := h.admitOpen running frame permit now later
  unfold Inbound.handleOpen
  dsimp only
  split_ifs
  · exact { hadmitted with }
  · exact sound_close hadmitted.consumers

end

lemma Sound.step (event : InboundEvent) : (s.step cfg event).Sound cfg := by
  cases event with
  | opened frame permit now later sent =>
    simp only [Inbound.step]
    split_ifs with hready
    · exact (h.concat (.opened frame) nofun).handleOpen hready.1 frame permit now later
        sent
    · exact h
  | chunk frame =>
    simp only [Inbound.step]
    split_ifs with hready
    · exact h.chunk frame hready.1 hready.2
    · exact h
  | ended frame =>
    simp only [Inbound.step]
    split_ifs with hready
    · exact h.ended frame hready.2
    · exact h
  | wake elapsed => exact h.wake elapsed
  | closed => exact sound_close h.consumers
  | polls i => exact h.polls i
  | releases i => exact h.releases i

end

lemma sound_run (cfg : InboundConfig) (events : List InboundEvent) :
    (run cfg events).Sound cfg := by
  have hrun : ∀ (events : List InboundEvent) (s : Inbound), s.Sound cfg →
      (events.foldl (Inbound.step cfg) s).Sound cfg := by
    intro events
    induction events with
    | nil => exact fun _ h => h
    | cons event events ih => exact fun s h => ih _ (h.step event)
  exact hrun events _ .start

end Inbound

end Radiata.Session
