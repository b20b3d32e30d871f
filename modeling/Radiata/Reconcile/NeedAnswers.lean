import Radiata.Reconcile.Backlog

/-!
# Answers to NEED

A NEED bound is answered by ROWS messages behind the backlog, and remembered until the backlog
is found empty: a bound within a remembered one queues nothing.  The memory is right as long
as every row of a remembered bound is queued or was emitted since the backlog was last empty.
Four things break it: an answer that the ceiling cut after its first message, a row that is
stored in a remembered bound, a failing drive that loses drained rows, and a drive that
empties the backlog and fills it again before the memory is cleared.
-/

namespace Radiata.Reconcile

open Lib
open List (append_assoc drop_left mem_append mem_append_left not_mem_nil)

namespace Engine

/-! ## One bound -/

section Bound

variable {e : Engine} {start stop : UInt64}

lemma answerNeed_of_merged (h : e.Merged start stop) : e.answerNeed start stop = e := by
  unfold answerNeed
  rw [if_pos]
  simpa [Merged] using h

lemma answerNeed_of_full (hmerged : ¬e.Merged start stop)
    (hfull : needPendingBounds ≤ e.pendingNeeds.length) :
    (e.answerNeed start stop).pendingNeeds = e.pendingNeeds ∧
      (e.answerNeed start stop).backlog = e.backlog := by
  unfold answerNeed
  rw [if_neg (by simpa [Merged] using hmerged), if_pos hfull]
  exact ⟨rfl, rfl⟩

lemma answerNeed_of_room (hmerged : ¬e.Merged start stop)
    (hroom : e.pendingNeeds.length < needPendingBounds) :
    (e.answerNeed start stop).backlog = e.backlog ++ e.rowMessages start stop true ∧
      (e.answerNeed start stop).pendingNeeds =
        if e.rowMessages start stop true = [] then e.pendingNeeds
        else e.pendingNeeds ++ [(start, stop)] := by
  unfold answerNeed
  rw [if_neg (by simpa [Merged] using hmerged), if_neg hroom.not_ge, pushRows_eq]
  dsimp only
  cases hmessages : e.rowMessages start stop true with
  | nil | cons m ms => exact ⟨rfl, rfl⟩

lemma rowsIn_of_index {e' : Engine} (h : e'.index = e.index) (bound : UInt64 × UInt64) :
    e'.rowsIn bound = e.rowsIn bound := by
  rw [rowsIn, rowsIn, h]

lemma rowsIn_mono {p : UInt64 × UInt64} (hstart : p.1 ≤ start) (hstop : stop ≤ p.2) {row : Row}
    (h : row ∈ e.rowsIn (start, stop)) : row ∈ e.rowsIn p := by
  obtain ⟨entry, hentry, rfl⟩ := List.mem_map.mp h
  obtain ⟨hmem, hlow, hhigh⟩ := LiveIndex.mem_entriesIn.mp hentry
  exact List.mem_map.mpr ⟨entry,
    LiveIndex.mem_entriesIn.mpr ⟨hmem, hstart.trans hlow, hhigh.trans hstop⟩, rfl⟩

lemma payloads_rowMessages (h : e.rowsStopped start stop true = false) :
    payloads (e.rowMessages start stop true) = e.rowsIn (start, stop) :=
  (e.rowMessages_packs start stop true).whole h

def CutShort (e : Engine) (bound : DigestRange) : Prop :=
  ¬e.Merged bound.start bound.stop ∧ e.pendingNeeds.length < needPendingBounds ∧
    e.rowsStopped bound.start bound.stop true = true ∧
      e.rowMessages bound.start bound.stop true ≠ []

end Bound

/-! ## One NEED message -/

def Uncut (e : Engine) (bounds : List DigestRange) : Prop :=
  ∀ before bound after, bounds = before ++ bound :: after → ¬(e.receiveNeed before).CutShort bound

lemma receiveNeed_append (e : Engine) (bounds more : List DigestRange) :
    e.receiveNeed (bounds ++ more) = (e.receiveNeed bounds).receiveNeed more :=
  List.foldl_append

structure Answers (e e' : Engine) (messages : List Message) : Prop where
  index : e'.index = e.index
  backlog : e'.backlog = e.backlog ++ messages
  remembered : ∀ p ∈ e'.pendingNeeds,
    p ∈ e.pendingNeeds ∨ ∀ row ∈ e.rowsIn p, row ∈ payloads messages

lemma Answers.refl (e : Engine) : Answers e e [] :=
  ⟨rfl, (List.append_nil _).symm, fun _ h => .inl h⟩

lemma Answers.trans {a b c : Engine} {ms ms' : List Message} (h : Answers a b ms)
    (h' : Answers b c ms') : Answers a c (ms ++ ms') := by
  refine ⟨h'.index.trans h.index, by rw [h'.backlog, h.backlog, append_assoc], fun p hp => ?_⟩
  rw [payloads_append]
  rcases h'.remembered p hp with hold | hnew
  · exact (h.remembered p hold).imp_right fun hrows row hrow =>
      mem_append_left _ (hrows row hrow)
  · refine .inr fun row hrow => List.mem_append_right _ (hnew row ?_)
    rwa [rowsIn_of_index h.index]

variable {e : Engine}

lemma answerNeed_answers {bound : DigestRange} (h : ¬e.CutShort bound) :
    ∃ messages, Answers e (e.answerNeed bound.start bound.stop) messages := by
  have hindex := (e.answerNeed_extends bound.start bound.stop).index
  by_cases hmerged : e.Merged bound.start bound.stop
  · rw [answerNeed_of_merged hmerged]
    exact ⟨[], .refl e⟩
  by_cases hroom : e.pendingNeeds.length < needPendingBounds
  · obtain ⟨hbacklog, hneeds⟩ := answerNeed_of_room hmerged hroom
    refine ⟨_, hindex, hbacklog, fun p hp => ?_⟩
    rw [hneeds] at hp
    split_ifs at hp with hqueued
    · exact .inl hp
    · rcases List.mem_append.mp hp with hold | hnew
      · exact .inl hold
      · rw [List.mem_singleton.mp hnew, payloads_rowMessages]
        · exact .inr fun row hrow => hrow
        · exact Bool.eq_false_of_not_eq_true fun hstop => h ⟨hmerged, hroom, hstop, hqueued⟩
  · obtain ⟨hneeds, hbacklog⟩ := answerNeed_of_full hmerged (not_lt.mp hroom)
    exact ⟨[], hindex, by rw [hbacklog, List.append_nil], fun p hp => .inl (hneeds ▸ hp)⟩

lemma receiveNeed_answers {bounds : List DigestRange} (h : e.Uncut bounds) :
    ∃ messages, Answers e (e.receiveNeed bounds) messages := by
  induction bounds using List.reverseRecOn with
  | nil => exact ⟨[], .refl e⟩
  | append_singleton bounds bound ih =>
    have hbefore : e.Uncut bounds := by
      rintro before b after rfl
      refine h before b (after ++ [bound]) ?_
      simp
    obtain ⟨messages, hmessages⟩ := ih hbefore
    obtain ⟨last, hlast⟩ := answerNeed_answers (h bounds bound [] rfl)
    rw [receiveNeed_append]
    exact ⟨messages ++ last, hmessages.trans hlast⟩

/-! ## What other work remembers -/

def unasked : Grounds := ⟨fun _ => True, fun _ => False, fun _ => True, fun _ _ _ => trivial⟩

lemma Moves.pendingNeeds {e' : Engine} (h : Moves unasked e e') :
    e'.pendingNeeds = e.pendingNeeds := by
  induction h with
  | refl => rfl
  | @tail e₁ _ _ hmove ih =>
    cases hmove with
    | respond ts =>
      obtain ⟨messages, history, heq, -⟩ := e₁.processRanges_eq ts
      rw [heq]
      exact ih
    | answer bound hasked => exact hasked.elim
    | receipt | openRound | closeSlot | spend | hold => exact ih

lemma finish_pendingNeeds (e : Engine) (out : List Message) (generated : ℕ) :
    (e.finish out generated).2.pendingNeeds = e.pendingNeeds := by
  have hholds : unasked.Holds (e.drainBacklog out).2 := fun _ _ => trivial
  exact (settle_moves generated hholds).pendingNeeds

lemma drive_pendingNeeds (sha256 : Hash) {input : Drive}
    (h : ∀ bounds, input ≠ .message (.need e.lane bounds)) :
    (e.drive sha256 input).2.pendingNeeds = e.opened.pendingNeeds := by
  have hlane : e.opened.lane = e.lane := by
    unfold opened expireNeeds
    split_ifs <;> rfl
  have haccept : (e.opened.accept sha256 input).2.pendingNeeds = e.opened.pendingNeeds := by
    by_cases hneed : ∃ lane bounds, input = .message (.need lane bounds)
    · -- a NEED of another lane fails
      obtain ⟨lane, bounds, rfl⟩ := hneed
      have hne : (Message.need lane bounds).lane ≠ e.opened.lane := by
        rw [hlane]
        rintro rfl
        exact h bounds rfl
      show (e.opened.applyMessage sha256 _).2.pendingNeeds = _
      unfold applyMessage
      rw [if_pos hne]
    · have hentitles : unasked.Entitles e.opened input := by
        cases input with
        | message m =>
          refine ⟨fun _ _ => trivial, ?_⟩
          cases m with
          | need lane bounds => exact absurd ⟨lane, bounds, rfl⟩ hneed
          | root | hint | rows | done => trivial
          | offer lane ranges => exact fun _ _ => trivial
        | rootExchange | localChange | localChangeEager | drain => exact fun _ _ => trivial
      obtain ⟨e₁, hprepared, hmoves⟩ := accept_moves sha256 hentitles
      rw [hmoves.pendingNeeds]
      cases hprepared with
      | message hintake => exact hintake.receives.pendingNeeds
      | localChange | localChangeEager | rootExchange | drain => rfl
  refine drive_keeps (P := fun e' => e'.pendingNeeds = e.opened.pendingNeeds) haccept ?_
  exact fun e' out generated he' => (finish_pendingNeeds e' out generated).trans he'

lemma drive_need (sha256 : Hash) (e : Engine) (bounds : List DigestRange) :
    (e.drive sha256 (.message (.need e.lane bounds))).2.pendingNeeds =
        (e.opened.hear.receiveNeed bounds).pendingNeeds ∧
      (e.drive sha256 (.message (.need e.lane bounds))).2.index = e.index ∧
      e.discards sha256 (.drive (.message (.need e.lane bounds))) = [] ∧
      ∃ settled, (e.opened.hear.receiveNeed bounds).backlog.drop e.opened.backlog.length ++
        settled =
        e.pushes sha256 (.drive (.message (.need e.lane bounds))) := by
  have hlane : (Message.need e.lane bounds).lane = e.opened.lane := by
    unfold opened expireNeeds
    split_ifs <;> rfl
  have haccept : e.opened.accept sha256 (.message (.need e.lane bounds)) =
      (.ok ((e.opened.hear.receiveNeed bounds).backlog.length - e.opened.backlog.length),
        e.opened.hear.receiveNeed bounds) :=
    applyMessage_of_lane sha256 hlane
  have hdrive := drive_of_ok haccept
  refine ⟨?_, ?_, ?_, ?_⟩
  · rw [hdrive]
    exact finish_pendingNeeds _ _ _
  · obtain ⟨e₁, hprepared, hindex, -⟩ := e.drive_index sha256 (.message (.need e.lane bounds))
    rw [hindex]
    cases hprepared with
    | message hintake =>
      refine hintake.index_keeps (P := fun ix => ix = e.index) e.opened_index ?_
      exact fun _ _ _ hrow => absurd hrow not_mem_nil
  · simp only [discards, hdrive]
  · simp only [pushes, haccept]
    exact ⟨_, rfl⟩

end Engine

/-! ## Rows emitted since the backlog was last empty -/

structure Emitter where
  engine : Engine
  window : List Row

namespace Emitter

variable (sha256 : Hash)

def new (lane : LaneId) : Emitter := ⟨.new lane, []⟩

section

variable (s : Emitter)

/-- The rows emitted since the backlog was last empty, when an operation leaves it non-empty.
The first drain of a drive empties a backlog within the budget. -/
def emitted : Op → List Row
  | .drive input =>
    if s.engine.backlog.length ≤ messageBudgetPerDrive then
      payloads ((s.engine.returns sha256 (.drive input)).drop s.engine.backlog.length)
    else s.window ++ payloads (s.engine.returns sha256 (.drive input))
  | _ => s.window

def step (op : Op) : Emitter :=
  ⟨s.engine.step sha256 op,
    if (s.engine.step sha256 op).backlog.isEmpty then [] else s.emitted sha256 op⟩

/-! ## The statement -/

def reached (before : List DigestRange) : Engine :=
  s.engine.opened.hear.receiveNeed before

/-- The row is in a ROWS message that the operation emits, that is in the backlog after it, or
that was emitted before it while the backlog had not emptied. -/
def Sent (op : Op) (row : Row) : Prop :=
  row ∈ payloads (s.engine.returns sha256 op) ∨
    row ∈ payloads (s.engine.step sha256 op).backlog ∨ row ∈ s.window

/-- There is no room for the row: the memory of bounds is full, or the ceiling of queued ROWS
messages cut the answer before it. -/
def NoRoom (e : Engine) (bound : DigestRange) (row : Row) : Prop :=
  ¬e.Merged bound.start bound.stop ∧
    (needPendingBounds ≤ e.pendingNeeds.length ∨
      e.rowsStopped bound.start bound.stop true = true ∧
        row ∉ payloads (e.rowMessages bound.start bound.stop true))

/-- **No NEED is silenced unanswered**: every row held in a bound is sent, or there was no room
for it and the bound is not remembered. -/
def AnswersNeed (op : Op) : Prop :=
  ∀ bounds, op = .drive (.message (.need s.engine.lane bounds)) →
    ∀ before bound after, bounds = before ++ bound :: after →
      ∀ row ∈ s.engine.rowsIn (bound.start, bound.stop), s.Sent sha256 op row ∨
        NoRoom (s.reached before) bound row ∧
          ((s.reached before).answerNeed bound.start bound.stop).pendingNeeds =
            (s.reached before).pendingNeeds

end

/-- **What the memory of bounds relies on.** -/
structure Steady (s : Emitter) (op : Op) : Prop where
  uncut : ∀ bounds, op = .drive (.message (.need s.engine.lane bounds)) →
    s.engine.opened.hear.Uncut bounds
  settled : s.engine.backlog ≠ [] → ∀ p ∈ s.engine.pendingNeeds,
    (s.engine.step sha256 op).rowsIn p ⊆ s.engine.rowsIn p
  delivered : s.engine.pendingNeeds ≠ [] → payloads (s.engine.discards sha256 op) = []
  unbroken : s.engine.pendingNeeds ≠ [] → s.engine.backlog ≠ [] → op.isDrive = true →
    s.engine.backlog.length ≤ messageBudgetPerDrive → (s.engine.step sha256 op).backlog = []

/-- Every row of a remembered bound is queued or was emitted since the backlog was last
empty. -/
def Remembers (s : Emitter) : Prop :=
  s.engine.backlog ≠ [] → ∀ p ∈ s.engine.pendingNeeds, ∀ row ∈ s.engine.rowsIn p,
    row ∈ payloads s.engine.backlog ∨ row ∈ s.window

/-! ## One operation -/

variable {sha256} {s : Emitter} {op : Op}

variable {row : Row}

lemma payloads_kept (h : payloads (s.engine.discards sha256 op) = [])
    (hrow : row ∈ payloads s.engine.backlog ∨ row ∈ payloads (s.engine.pushes sha256 op)) :
    row ∈ payloads (s.engine.returns sha256 op) ∨
      row ∈ payloads (s.engine.step sha256 op).backlog := by
  have hqueue := congrArg payloads (s.engine.step_queue sha256 op)
  simp only [payloads_append, h, List.nil_append] at hqueue
  rw [← mem_append, hqueue, mem_append]
  exact hrow

lemma pushed_emitted {input : Drive}
    (hrow : row ∈ payloads (s.engine.pushes sha256 (.drive input))) :
    row ∈ payloads (s.engine.step sha256 (.drive input)).backlog ∨
      row ∈ s.emitted sha256 (.drive input) := by
  obtain ⟨hbacklog, hreturned⟩ := s.engine.drive_backlog sha256 input
  rw [Engine.pushes_drive] at hrow
  show row ∈ payloads (s.engine.drive sha256 input).2.backlog ∨ _
  rw [hbacklog]
  cases hresult : (s.engine.drive sha256 input).1 with
  | error err =>
    have hnone : s.engine.queued sha256 input = [] := by
      rw [Engine.queued]
      split
      · next h => rw [h] at hresult; cases hresult
      · rfl
    rw [hnone] at hrow
    exact absurd hrow not_mem_nil
  | ok out =>
    simp only [emitted, Engine.returns, hresult, sent]
    rw [hreturned out hresult]
    split_ifs with hfits
    · -- the budget cuts what was pushed in two
      rw [List.drop_take, drop_left, or_comm, ← mem_append, ← payloads_append,
        List.drop_append, List.drop_eq_nil_of_le hfits, List.nil_append, List.take_append_drop]
      exact hrow
    · rw [List.drop_append_of_le_length (le_of_not_ge hfits), payloads_append]
      exact .inl (List.mem_append_right _ hrow)

lemma mem_opened_pendingNeeds {e : Engine} {p : UInt64 × UInt64}
    (h : p ∈ e.opened.pendingNeeds) : e.backlog ≠ [] ∧ p ∈ e.pendingNeeds := by
  unfold Engine.opened Engine.expireNeeds at h
  split_ifs at h with hempty
  · exact absurd h not_mem_nil
  · exact ⟨fun hnil => hempty (by rw [hnil]; rfl), h⟩

lemma mem_pushes {bounds before : List DigestRange} {bound : DigestRange}
    {after : List DigestRange} (hsplit : bounds = before ++ bound :: after)
    {messages last : List Message}
    (hbefore : (s.reached before).backlog = s.engine.opened.backlog ++ messages)
    (hbound : ((s.reached before).answerNeed bound.start bound.stop).backlog = (s.reached
      before).backlog ++ last) (hrow : row ∈ payloads (messages ++ last)) :
    row ∈ payloads (s.engine.pushes sha256 (.drive (.message (.need s.engine.lane bounds)))) := by
  obtain ⟨-, -, -, settled, hpushes⟩ := s.engine.drive_need sha256 bounds
  have hrest : ((s.reached before).answerNeed bound.start bound.stop).backlog <+:
      (s.engine.opened.hear.receiveNeed bounds).backlog := by
    rw [hsplit, Engine.receiveNeed_append]
    exact (Engine.receiveNeed_moves (g := Grounds.any) fun _ _ => trivial).extends.backlog
  obtain ⟨rest, hrest⟩ := hrest
  rw [hbound, hbefore] at hrest
  rw [← hpushes, ← hrest, append_assoc, append_assoc, drop_left, payloads_append,
    ← append_assoc, payloads_append]
  exact mem_append_left _ (mem_append_left _ hrow)

/-- **A NEED that the memory answers for is answered.** -/
theorem Remembers.answersNeed (hmem : s.Remembers) (hsteady : Steady sha256 s op) :
    AnswersNeed sha256 s op := by
  rintro bounds rfl before bound after hsplit row hrow
  have huncut := hsteady.uncut bounds rfl
  have hbefore : s.engine.opened.hear.Uncut before := by
    rintro first b later rfl
    refine huncut first b (later ++ bound :: after) ?_
    rw [hsplit, append_assoc]
    rfl
  obtain ⟨messages, hmessages⟩ := Engine.receiveNeed_answers hbefore
  obtain ⟨last, hlast⟩ := Engine.answerNeed_answers (huncut before bound after hsplit)
  have hrows (b : UInt64 × UInt64) : s.engine.opened.hear.rowsIn b = s.engine.rowsIn b :=
    Engine.rowsIn_of_index s.engine.opened_index b
  have hreached (b : UInt64 × UInt64) : (s.reached before).rowsIn b = s.engine.rowsIn b :=
    (Engine.rowsIn_of_index hmessages.index b).trans (hrows b)
  -- what is queued before or by this drive is sent
  have hdiscards : payloads (s.engine.discards sha256
      (.drive (.message (.need s.engine.lane bounds)))) = [] := by
    rw [(s.engine.drive_need sha256 bounds).2.2.1]
    rfl
  have hsent (hqueued : row ∈ payloads s.engine.backlog ∨ row ∈ payloads (messages ++ last)) :
      s.Sent sha256 (.drive (.message (.need s.engine.lane bounds))) row := by
    have hkept := payloads_kept hdiscards (hqueued.imp_right fun hrow =>
      mem_pushes hsplit hmessages.backlog hlast.backlog hrow)
    exact hkept.imp_right .inl
  by_cases hmerged : (s.reached before).Merged bound.start bound.stop
  · refine .inl ?_
    obtain ⟨p, hp, hstart, hstop⟩ := hmerged
    have hrow' : row ∈ s.engine.rowsIn p := Engine.rowsIn_mono hstart hstop hrow
    rcases hmessages.remembered p hp with hold | hnew
    · obtain ⟨hbacklog, hold⟩ := mem_opened_pendingNeeds hold
      rcases hmem hbacklog p hold row hrow' with hqueued | hwindow
      · exact hsent (.inl hqueued)
      · exact .inr (.inr hwindow)
    · refine hsent (.inr ?_)
      rw [payloads_append]
      exact mem_append_left _ (hnew row (by rwa [hrows]))
  by_cases hroom : (s.reached before).pendingNeeds.length < needPendingBounds
  · obtain ⟨hbacklog, hneeds⟩ := Engine.answerNeed_of_room hmerged hroom
    have hlast' : last = (s.reached before).rowMessages bound.start bound.stop true :=
      List.append_cancel_left (hlast.backlog.symm.trans hbacklog)
    by_cases hcarried : row ∈ payloads ((s.reached before).rowMessages bound.start bound.stop true)
    · refine .inl (hsent (.inr ?_))
      rw [payloads_append, hlast']
      exact List.mem_append_right _ hcarried
    · -- the answer was cut before the row, so it queued nothing
      have hstopped : (s.reached before).rowsStopped bound.start bound.stop true = true := by
        by_contra hstopped
        rw [Engine.payloads_rowMessages (Bool.eq_false_of_not_eq_true hstopped), hreached]
          at hcarried
        exact hcarried hrow
      have hnone : (s.reached before).rowMessages bound.start bound.stop true = [] := by
        by_contra hqueued
        exact huncut before bound after hsplit ⟨hmerged, hroom, hstopped, hqueued⟩
      rw [if_pos hnone] at hneeds
      exact .inr ⟨⟨hmerged, .inr ⟨hstopped, hcarried⟩⟩, hneeds⟩
  · exact .inr ⟨⟨hmerged, .inl (not_lt.mp hroom)⟩,
      (Engine.answerNeed_of_full hmerged (not_lt.mp hroom)).1⟩

lemma remembered_of_drive {input : Drive} (hsteady : Steady sha256 s (.drive input))
    {p : UInt64 × UInt64} (hp : p ∈ (s.engine.drive sha256 input).2.pendingNeeds) :
    p ∈ s.engine.opened.pendingNeeds ∨ ∀ row ∈ (s.engine.drive sha256 input).2.rowsIn p,
      row ∈ payloads (s.engine.pushes sha256 (.drive input)) := by
  by_cases hneed : ∃ bounds, input = .message (.need s.engine.lane bounds)
  · obtain ⟨bounds, rfl⟩ := hneed
    obtain ⟨hneeds, hindex, -, settled, hpushes⟩ := s.engine.drive_need sha256 bounds
    obtain ⟨messages, hmessages⟩ := Engine.receiveNeed_answers (hsteady.uncut bounds rfl)
    rw [hneeds] at hp
    refine (hmessages.remembered p hp).imp_right fun hrows row hrow => ?_
    have hsame : s.engine.opened.hear.index = s.engine.index := s.engine.opened_index
    rw [Engine.rowsIn_of_index (hindex.trans hsame.symm)] at hrow
    have hdrop : (s.engine.opened.hear.receiveNeed bounds).backlog.drop
        s.engine.opened.backlog.length = messages := by
      rw [hmessages.backlog]
      exact drop_left
    rw [← hpushes, hdrop, payloads_append]
    exact mem_append_left _ (hrows row hrow)
  · rw [Engine.drive_pendingNeeds sha256 fun bounds heq => hneed ⟨bounds, heq⟩] at hp
    exact .inl hp

/-- **Steady operations keep the memory right.** -/
theorem Remembers.step (hmem : s.Remembers) (hsteady : Steady sha256 s op) :
    (s.step sha256 op).Remembers := by
  intro hne p hp row hrow
  have hwindow : (s.step sha256 op).window = s.emitted sha256 op := by
    show (if (s.engine.step sha256 op).backlog.isEmpty then [] else s.emitted sha256 op) = _
    rw [if_neg]
    exact fun hempty => hne (List.isEmpty_iff.mp hempty)
  rw [hwindow]
  -- a bound that was remembered before has no new row
  have hold (hbacklog : s.engine.backlog ≠ []) (hp : p ∈ s.engine.pendingNeeds) :
      row ∈ payloads s.engine.backlog ∨ row ∈ s.window :=
    hmem hbacklog p hp row (hsteady.settled hbacklog p hp hrow)
  have hrefills (h : Engine.Refills s.engine (s.engine.step sha256 op)) :
      row ∈ payloads (s.engine.step sha256 op).backlog ∨ row ∈ s.window := by
    have hbacklog : (s.engine.step sha256 op).backlog ≠ [] := hne
    rw [h.backlog] at hbacklog ⊢
    exact hold hbacklog (h.pendingNeeds ▸ hp)
  cases op with
  | insertRow key content =>
      exact hrefills (s.engine.insertRowInner_refills sha256 key content true)
  | insertRowQuiet key content =>
    exact hrefills (s.engine.insertRowInner_refills sha256 key content false)
  | removeRow key content => exact hrefills (s.engine.removeRow_refills sha256 key content)
  | drive input =>
    rcases remembered_of_drive hsteady hp with hp | hpushed
    · obtain ⟨hbacklog, hp⟩ := mem_opened_pendingNeeds hp
      have hneeds : s.engine.pendingNeeds ≠ [] := List.ne_nil_of_mem hp
      have hlong : ¬s.engine.backlog.length ≤ messageBudgetPerDrive := fun hfits =>
        hne (hsteady.unbroken hneeds hbacklog rfl hfits)
      simp only [emitted, if_neg hlong, mem_append]
      rcases hold hbacklog hp with hqueued | hearlier
      · rcases payloads_kept (hsteady.delivered hneeds) (.inl hqueued) with hout | hleft
        · exact .inr (.inr hout)
        · exact .inl hleft
      · exact .inr (.inl hearlier)
    · exact pushed_emitted (hpushed row hrow)

lemma Remembers.new (lane : LaneId) : (new lane).Remembers := fun h => absurd rfl h

/-- **No NEED is silenced unanswered** in a run of steady operations. -/
theorem needs_answered {lane : LaneId} {ops : List Op}
    (h : EveryStep (Emitter.step sha256) (Steady sha256) (new lane) ops) :
    EveryStep (Emitter.step sha256) (AnswersNeed sha256) (new lane) ops := by
  intro before op after hsplit
  have hmem : (before.foldl (Emitter.step sha256) (new lane)).Remembers :=
    invariant_of_run (.new lane) (fun before op after hsplit hmem =>
      hmem.step (h before op after hsplit)) before (op :: after) hsplit
  exact hmem.answersNeed (h before op after hsplit)

def askedOps : List Op :=
  [.insertRow [1] [2], .drive (.message (.need .descriptors [⟨0, maxWord⟩]))]

theorem asked_row_answered :
    EveryStep (Emitter.step oneRowHash) (AnswersNeed oneRowHash) (new .descriptors) askedOps := by
  refine needs_answered (everyStep_cons.mpr ⟨?_, everyStep_cons.mpr ⟨?_, everyStep_nil⟩⟩)
  · exact ⟨nofun, fun h => absurd rfl h, fun h => absurd rfl h, fun h => absurd rfl h⟩
  · have hneeds : ((new .descriptors).step oneRowHash (.insertRow [1] [2])).engine.pendingNeeds =
        [] :=
      by decide +kernel
    have hbacklog : ((new .descriptors).step oneRowHash (.insertRow [1] [2])).engine.backlog = [] :=
      by decide +kernel
    refine ⟨fun bounds heq => ?_, fun h => absurd hbacklog h, fun h => absurd hneeds h,
      fun h => absurd hneeds h⟩
    cases heq
    intro before bound after hsplit hcut
    obtain ⟨rfl, heq⟩ | ⟨rest, -, hrest⟩ := List.cons_eq_append_iff.mp hsplit
    · obtain ⟨rfl, -⟩ := List.cons.inj heq
      have hwhole : (((new .descriptors).step oneRowHash
          (.insertRow [1] [2])).engine.opened.hear.receiveNeed []).rowsStopped 0 maxWord true =
            false := by decide +kernel
      exact absurd (hwhole.symm.trans hcut.2.2.1) Bool.false_ne_true
    · simp at hrest

/-- The replies to four held hints are more than two drives return; the whole range is asked
for behind them, and another row is stored in it. -/
def silencingOps : List Op :=
  [.insertRow [1] [2],
    .drive (.message (.hint .descriptors [⟨0, maxWord, 5, 0⟩] [])),
    .drive (.message Engine.emptyClaims), .drive (.message Engine.emptyClaims),
    .drive (.message Engine.emptyClaims), .drive (.message Engine.emptyClaims),
    .drive (.message (.rows .descriptors [])),
    .drive (.message (.need .descriptors [⟨0, maxWord⟩])),
    .insertRow [3] [4]]

def silencing : Emitter := silencingOps.foldl (Emitter.step positionHash) (new .descriptors)

/-- **A repeated NEED is silenced**: the row stored since is in no ROWS message, and the bound
is taken for answered. -/
theorem repeated_need_silenced :
    ¬EveryStep (Emitter.step positionHash) (AnswersNeed positionHash) (new .descriptors)
      (silencingOps ++ [.drive (.message (.need .descriptors [⟨0, maxWord⟩]))]) := by
  intro h
  have hanswers : AnswersNeed positionHash silencing
      (.drive (.message (.need .descriptors [⟨0, maxWord⟩]))) := h silencingOps _ [] rfl
  obtain ⟨hlane, hheld, hreturned, hqueued, hearlier, hpending⟩ :
      silencing.engine.lane = .descriptors ∧
      (⟨[3], [4]⟩ : Row) ∈ silencing.engine.rowsIn (0, maxWord) ∧
      (⟨[3], [4]⟩ : Row) ∉ payloads (silencing.engine.returns positionHash
        (.drive (.message (.need .descriptors [⟨0, maxWord⟩])))) ∧
      (⟨[3], [4]⟩ : Row) ∉ payloads (silencing.engine.step positionHash
        (.drive (.message (.need .descriptors [⟨0, maxWord⟩])))).backlog ∧
      (⟨[3], [4]⟩ : Row) ∉ silencing.window ∧
      (0, maxWord) ∈ (silencing.reached []).pendingNeeds := by
    decide +kernel
  have hmerged : (silencing.reached []).Merged 0 maxWord :=
    ⟨(0, maxWord), hpending, UInt64.le_refl _, UInt64.le_refl _⟩
  rcases hanswers [⟨0, maxWord⟩] (by rw [hlane]) [] ⟨0, maxWord⟩ [] rfl ⟨[3], [4]⟩ hheld with
    (hrow | hrow | hrow) | ⟨⟨hnot, -⟩, -⟩
  · exact hreturned hrow
  · exact hqueued hrow
  · exact hearlier hrow
  · exact hnot hmerged

end Emitter

end Radiata.Reconcile
