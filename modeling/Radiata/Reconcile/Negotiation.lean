import Radiata.Reconcile.Packing

/-!
# The negotiation core, by its effect

`processRanges` answers each compared range by one of five verdicts.  This module
states its whole effect as one record update: the backlog grows by the OFFERs of
the split ranges, the NEEDs of the lacked ones and the ROWS of the pushed ones, in
that order, and nothing else changes but the awaiting flag and the history.  The
layers above cite `processRanges_eq` and never unfold the loop.
-/

namespace Radiata.Reconcile

open Lib

variable (messages : List Message)

def rowsCount : ℕ := messages.countP Message.isRows

@[simp] lemma rowsCount_append (as bs : List Message) :
    rowsCount (as ++ bs) = rowsCount as + rowsCount bs := by
  simp [rowsCount]

lemma rowsCount_eq_zero {messages : List Message} (h : ∀ m ∈ messages, m.isRows = false) :
    rowsCount messages = 0 := by
  simpa [rowsCount, List.countP_eq_zero] using h

lemma rowsCount_le_length : rowsCount messages ≤ messages.length :=
  List.countP_le_length

namespace Engine

variable (e : Engine)

lemma queuedRowsMessages_eq : e.queuedRowsMessages = rowsCount e.backlog := by
  rw [queuedRowsMessages, rowsCount]
  congr 1

/-! ## Verdicts -/

inductive Verdict where
  | settled
  | push
  | need
  | collide
  | split
deriving DecidableEq

variable (t : Triple)

def verdict : Verdict :=
  if e.rangeFingerprint t.start t.stop = t.peer then .settled
  else if t.peer.count = 0 then .push
  else if (e.rangeFingerprint t.start t.stop).count = 0 then .need
  else if t.start = t.stop then .collide
  else .split

def offersFor : List RangeFingerprint :=
  match e.verdict t with
  | .split => (Reconcile.split t.start t.stop).map e.claim
  | _ => []

def needsFor : List DigestRange :=
  match e.verdict t with
  | .need | .collide => [⟨t.start, t.stop⟩]
  | _ => []

def pushesFor : List (UInt64 × UInt64) :=
  match e.verdict t with
  | .push | .collide => [(t.start, t.stop)]
  | _ => []

lemma compareRange_eq (work : Work) (t : Triple) :
    e.compareRange work t = ⟨work.offers ++ e.offersFor t, work.needs ++ e.needsFor t,
      work.pushes ++ e.pushesFor t⟩ := by
  unfold compareRange offersFor needsFor pushesFor verdict
  by_cases hsame : e.rangeFingerprint t.start t.stop = t.peer
  · simp [hsame]
  by_cases hpeer : t.peer.count = 0
  · simp [hsame, hpeer]
  by_cases hheld : (e.rangeFingerprint t.start t.stop).count = 0
  · simp [hsame, hpeer, hheld]
  by_cases hpoint : t.start = t.stop
  · simp only [if_neg hsame, if_neg hpeer, if_neg hheld, if_pos hpoint, List.append_nil]
  · simp [hsame, hpeer, hheld, hpoint]

lemma foldl_compareRange (ts : List Triple) (work : Work) :
    ts.foldl e.compareRange work = ⟨work.offers ++ ts.flatMap e.offersFor,
      work.needs ++ ts.flatMap e.needsFor, work.pushes ++ ts.flatMap e.pushesFor⟩ := by
  induction ts generalizing work with
  | nil => simp
  | cons t ts ih => simp [ih, compareRange_eq, List.append_assoc]

/-! ## Pushed rows -/

def rowsIn (bound : UInt64 × UInt64) : List Row :=
  (e.index.entriesIn bound.1 bound.2).map Prod.snd

structure PushOutcome (e : Engine) (bounds : List (UInt64 × UInt64)) (messages : List Message)
    (history : History) : Prop where
  shape : ∀ m ∈ messages, ∃ bound ∈ bounds, ∃ carried,
    m = .rows e.lane carried ∧ Packed carried ∧ carried ≠ [] ∧ carried ⊆ e.rowsIn bound
  ceiling : rowsCount e.backlog ≤ rowsBacklogCeiling →
    rowsCount e.backlog + messages.length ≤ rowsBacklogCeiling
  length_le : messages.length ≤ rowsBacklogCeiling * bounds.length
  carries : (payloads messages).Sublist (bounds.flatMap e.rowsIn)
  initiations : history.initiations = e.history.initiations
  droppedNeeds : history.droppedNeeds = e.history.droppedNeeds
  stops_le : e.history.ceilingStops ≤ history.ceilingStops
  whole : history.ceilingStops = e.history.ceilingStops →
    payloads messages = bounds.flatMap e.rowsIn
  starts : rowsCount e.backlog < rowsBacklogCeiling → (∃ bound ∈ bounds, e.rowsIn bound ≠ []) →
    ∃ m ∈ messages, m.payload ≠ []

variable {e : Engine} {bounds : List (UInt64 × UInt64)} {messages : List Message}
  {history : History}

lemma PushOutcome.step {bound : UInt64 × UInt64}
    (h : PushOutcome (e.pushRows bound.1 bound.2 false).2 bounds messages history) :
    PushOutcome e (bound :: bounds) (e.rowMessages bound.1 bound.2 false ++ messages) history := by
  have hp := e.rowMessages_packs bound.1 bound.2 false
  have hroom := hp.length_le
  rw [queuedRowsMessages_eq] at hp hroom
  have hall : ∀ m ∈ e.rowMessages bound.1 bound.2 false, m.isRows = true := by
    intro m hm
    obtain ⟨carried, rfl, -⟩ := hp.shape m hm
    rfl
  have hcount : rowsCount (e.rowMessages bound.1 bound.2 false) =
      (e.rowMessages bound.1 bound.2 false).length := by
    rw [rowsCount, List.countP_eq_length]
    exact hall
  obtain ⟨hshape, hceiling, hlength, hcarries, hinit, hdrop, hstops, hwhole, hstarts⟩ := h
  rw [pushRows_eq] at hshape hceiling hcarries hinit hdrop hstops hwhole hstarts
  simp only [emissionHistory] at hinit hdrop hstops hwhole
  simp only [rowsCount_append, hcount] at hceiling hstarts
  refine ⟨?_, ?_, ?_, ?_, hinit, hdrop, by omega, ?_, ?_⟩
  · intro m hm
    rcases List.mem_append.mp hm with hm | hm
    · obtain ⟨carried, rfl, hpacked, hne⟩ := hp.shape m hm
      refine ⟨bound, List.mem_cons_self, carried, rfl, hpacked, hne rfl, ?_⟩
      refine List.Subset.trans ?_ hp.carries.subset
      exact fun row hrow => List.mem_flatMap.mpr ⟨_, hm, hrow⟩
    · obtain ⟨b, hb, rest⟩ := hshape m hm
      exact ⟨b, List.mem_cons_of_mem _ hb, rest⟩
  · intro hle
    rw [List.length_append]
    have := hceiling (by omega)
    omega
  · rw [List.length_append, List.length_cons, mul_add, mul_one]
    omega
  · rw [payloads_append, List.flatMap_cons]
    exact hp.carries.sublist.append hcarries
  · intro heq
    rw [payloads_append, List.flatMap_cons]
    cases hstop : e.rowsStopped bound.1 bound.2 false with
    | true =>
      rw [hstop] at hstops
      simp only [if_true] at hstops
      omega
    | false =>
      rw [hstop] at hwhole
      rw [hp.whole hstop, hwhole (by simpa using heq)]
      rfl
  · intro hlt hsome
    rcases eq_or_ne (e.rowsIn bound) [] with hnil | hne
    · -- Nothing is queued for an empty range, so the room is unchanged.
      have hpay : payloads (e.rowMessages bound.1 bound.2 false) = [] :=
        List.prefix_nil.mp (hnil ▸ hp.carries)
      have hnone : e.rowMessages bound.1 bound.2 false = [] := by
        rw [List.eq_nil_iff_forall_not_mem]
        intro m hm
        obtain ⟨carried, rfl, -, hcarried⟩ := hp.shape m hm
        exact hcarried rfl (List.flatMap_eq_nil_iff.mp hpay _ hm)
      rw [hnone] at hstarts ⊢
      obtain ⟨b, hb, hbne⟩ := hsome
      rcases List.mem_cons.mp hb with rfl | hb
      · exact absurd hnil hbne
      · exact hstarts (by simpa using hlt) ⟨b, hb, hbne⟩
    · obtain ⟨carried, rest, heq, hcarried⟩ := hp.starts (by omega) (Or.inr hne)
      refine ⟨.rows e.lane carried, ?_, hcarried hne⟩
      rw [heq]
      simp

lemma pushAll_eq (e : Engine) (bounds : List (UInt64 × UInt64)) :
    ∃ messages history,
      bounds.foldl (fun e bound => (e.pushRows bound.1 bound.2 false).2) e =
        { e with backlog := e.backlog ++ messages, history := history } ∧
      PushOutcome e bounds messages history := by
  induction bounds generalizing e with
  | nil =>
    exact ⟨[], e.history, by simp, by simp, by simp, by simp, by simp, rfl, rfl, le_rfl,
      by simp, by simp⟩
  | cons bound bounds ih =>
    obtain ⟨messages, history, heq, hout⟩ := ih (e.pushRows bound.1 bound.2 false).2
    refine ⟨_, history, ?_, hout.step⟩
    rw [List.foldl_cons, heq, pushRows_eq]
    simp [List.append_assoc]

/-! ## Answered bounds -/

def Merged (e : Engine) (start stop : UInt64) : Prop :=
  ∃ pending ∈ e.pendingNeeds, pending.1 ≤ start ∧ stop ≤ pending.2

structure AnswerOutcome (e : Engine) (start stop : UInt64) (messages : List Message)
    (needs : List (UInt64 × UInt64)) (history : History) : Prop where
  shape : ∀ m ∈ messages, ∃ carried,
    m = .rows e.lane carried ∧ Packed carried ∧ carried ⊆ e.rowsIn (start, stop)
  ceiling : rowsCount e.backlog ≤ rowsBacklogCeiling →
    rowsCount e.backlog + messages.length ≤ rowsBacklogCeiling
  length_le : messages.length ≤ rowsBacklogCeiling
  carries : payloads messages <+: e.rowsIn (start, stop)
  needs_mem : ∀ pending ∈ needs, pending ∈ e.pendingNeeds ∨ pending = (start, stop)
  needs_length : needs.length ≤ max e.pendingNeeds.length needPendingBounds
  needs_grow : needs ≠ e.pendingNeeds → messages ≠ []
  initiations : history.initiations = e.history.initiations
  dropped_le : e.history.droppedNeeds ≤ history.droppedNeeds
  stops_le : e.history.ceilingStops ≤ history.ceilingStops
  whole : history = e.history → ¬ e.Merged start stop →
    payloads messages = e.rowsIn (start, stop)
  starts : e.pendingNeeds = [] → rowsCount e.backlog < rowsBacklogCeiling →
    e.rowsIn (start, stop) ≠ [] → ∃ m ∈ messages, m.payload ≠ []

lemma AnswerOutcome.silent {start stop : UInt64}
    (hinit : history.initiations = e.history.initiations)
    (hdropped : e.history.droppedNeeds ≤ history.droppedNeeds)
    (hstops : e.history.ceilingStops = history.ceilingStops) (hpending : e.pendingNeeds ≠ [])
    (hwhole : history = e.history → e.Merged start stop) :
    AnswerOutcome e start stop [] e.pendingNeeds history :=
  ⟨by simp, by simp, by simp, by simp, fun _ h => Or.inl h, le_max_left _ _, fun h => absurd rfl h,
    hinit, hdropped, hstops.le, fun h hm => absurd (hwhole h) hm, fun h => absurd h hpending⟩

section

variable (e : Engine)

lemma answerNeed_eq (start stop : UInt64) : ∃ messages needs history,
      e.answerNeed start stop =
        { e with
          backlog := e.backlog ++ messages
          pendingNeeds := needs
          history := history } ∧
      AnswerOutcome e start stop messages needs history := by
  have hmerged : (e.pendingNeeds.any fun pending =>
      decide (pending.1 ≤ start ∧ stop ≤ pending.2)) = true ↔ e.Merged start stop := by
    simp [Merged]
  unfold answerNeed
  rw [pushRows_eq]
  by_cases hm : e.Merged start stop
  · rw [if_pos (hmerged.mpr hm)]
    obtain ⟨pending, hpending, -⟩ := id hm
    exact ⟨[], e.pendingNeeds, e.history, by simp,
      .silent rfl le_rfl rfl (List.ne_nil_of_mem hpending) fun _ => hm⟩
  rw [if_neg (fun h => hm (hmerged.mp h))]
  by_cases hfull : e.pendingNeeds.length ≥ needPendingBounds
  · rw [if_pos hfull]
    refine ⟨[], e.pendingNeeds,
      { e.history with droppedNeeds := e.history.droppedNeeds + 1 }, by simp,
      .silent rfl (Nat.le_succ _) rfl ?_ ?_⟩
    · intro hnil
      rw [hnil] at hfull
      exact absurd hfull (by decide)
    · intro h
      have := congrArg History.droppedNeeds h
      simp at this
  rw [if_neg hfull]
  -- The bound is answered: the outcome is the packer's, the bound is remembered if
  -- anything was queued.
  have hp := e.rowMessages_packs start stop true
  rw [queuedRowsMessages_eq] at hp
  have hlength := hp.length_le
  have houtcome (needs : List (UInt64 × UInt64))
      (hneeds : needs = e.pendingNeeds ∨
        needs = e.pendingNeeds ++ [(start, stop)] ∧ e.rowMessages start stop true ≠ []) :
      AnswerOutcome e start stop (e.rowMessages start stop true) needs
        (e.emissionHistory start stop true) := by
    refine ⟨?_, fun hle => by omega, by omega, hp.carries, ?_, ?_, ?_, rfl, le_rfl,
      Nat.le_add_right _ _, ?_, ?_⟩
    · intro m hmem
      obtain ⟨carried, rfl, hpacked, -⟩ := hp.shape m hmem
      refine ⟨carried, rfl, hpacked, List.Subset.trans ?_ hp.carries.subset⟩
      exact fun row hrow => List.mem_flatMap.mpr ⟨_, hmem, hrow⟩
    · rcases hneeds with rfl | ⟨rfl, -⟩
      · exact fun _ h => Or.inl h
      · intro pending hpending
        rcases List.mem_append.mp hpending with h | h
        · exact Or.inl h
        · exact Or.inr (List.mem_singleton.mp h)
    · rcases hneeds with rfl | ⟨rfl, -⟩
      · exact le_max_left _ _
      · rw [List.length_append, List.length_singleton]
        omega
    · rcases hneeds with rfl | ⟨-, hne⟩
      · exact fun h => absurd rfl h
      · exact fun _ => hne
    · intro hhistory _
      have hstops := congrArg History.ceilingStops hhistory
      cases hstop : e.rowsStopped start stop true with
      | true => simp [emissionHistory, hstop] at hstops
      | false => exact hp.whole hstop
    · intro _ hlt hne
      obtain ⟨carried, rest, heq, hcarried⟩ := hp.starts (by omega) (Or.inl rfl)
      refine ⟨.rows e.lane carried, ?_, hcarried hne⟩
      rw [heq]
      exact List.mem_cons_self
  dsimp only
  split_ifs with hqueued
  · exact ⟨_, _, _, rfl, houtcome _ (Or.inr ⟨rfl, List.ne_nil_of_length_pos hqueued⟩)⟩
  · exact ⟨_, _, _, rfl, houtcome _ (Or.inl rfl)⟩

/-! ## The whole response -/

variable (ts : List Triple)

def offerMessages : List Message :=
  (chunks maxRangesPerMessage (ts.flatMap e.offersFor)).map (.offer e.lane)

def needMessages : List Message :=
  (chunks maxRangesPerMessage (ts.flatMap e.needsFor)).map (.need e.lane)

def asks : Bool :=
  !(ts.flatMap e.offersFor).isEmpty || !(ts.flatMap e.needsFor).isEmpty

end

lemma isRows_of_mem_offerMessages {ts : List Triple} {m : Message} (h : m ∈ e.offerMessages ts) :
    m.isRows = false := by
  obtain ⟨chunk, -, rfl⟩ := List.mem_map.mp h
  rfl

lemma isRows_of_mem_needMessages {ts : List Triple} {m : Message} (h : m ∈ e.needMessages ts) :
    m.isRows = false := by
  obtain ⟨chunk, -, rfl⟩ := List.mem_map.mp h
  rfl

lemma PushOutcome.of_same_rows {e' : Engine} (h : PushOutcome e' bounds messages history)
    (hlane : e'.lane = e.lane) (hindex : e'.index = e.index) (hhistory : e'.history = e.history)
    (hcount : rowsCount e'.backlog = rowsCount e.backlog) :
    PushOutcome e bounds messages history := by
  have hrows : e'.rowsIn = e.rowsIn := by
    funext bound
    rw [rowsIn, rowsIn, hindex]
  obtain ⟨h1, h2, h3, h4, h5, h6, h7, h8, h9⟩ := h
  rw [hlane, hrows] at h1
  rw [hcount] at h2 h9
  rw [hrows] at h4 h8 h9
  rw [hhistory] at h5 h6 h7 h8
  exact ⟨h1, h2, h3, h4, h5, h6, h7, h8, h9⟩

/-- **The effect of the negotiation core.** -/
theorem processRanges_eq (e : Engine) (ts : List Triple) :
    ∃ messages history,
      e.processRanges ts =
        { e with
          backlog := e.backlog ++ (e.offerMessages ts ++ (e.needMessages ts ++ messages))
          awaitingResponse := e.awaitingResponse || e.asks ts
          history := history } ∧
      PushOutcome e (ts.flatMap e.pushesFor) messages history := by
  have hwork := foldl_compareRange e ts ⟨[], [], []⟩
  simp only [List.nil_append] at hwork
  obtain ⟨messages, history, heq, hout⟩ :=
    pushAll_eq ((e.pushOffers (ts.flatMap e.offersFor)).pushNeeds (ts.flatMap e.needsFor))
      (ts.flatMap e.pushesFor)
  refine ⟨messages, history, ?_, hout.of_same_rows rfl rfl rfl ?_⟩
  · rw [processRanges, hwork]
    simp only [heq]
    simp only [pushOffers, pushNeeds, offerMessages, needMessages, asks, List.append_assoc]
    cases (ts.flatMap e.offersFor).isEmpty <;> cases (ts.flatMap e.needsFor).isEmpty <;> simp
  · show rowsCount (e.backlog ++ e.offerMessages ts ++ e.needMessages ts) = rowsCount e.backlog
    rw [rowsCount_append, rowsCount_append,
      rowsCount_eq_zero fun m => isRows_of_mem_offerMessages,
      rowsCount_eq_zero fun m => isRows_of_mem_needMessages]
    rfl

end Engine

end Radiata.Reconcile
