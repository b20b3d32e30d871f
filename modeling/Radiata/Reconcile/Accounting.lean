import Radiata.Reconcile.Drive

/-!
# Accounting for outbound work

A `Tariff` prices the work an engine may still do: queued messages, an open round
and held hints.  Its two laws say that the response to a list of claims is worth no
more than the claims, and that more claims are not cheaper.  From these alone every
step of the engine is accounted for: a drive sends and keeps at most what the engine
was worth before, plus the price of the input (`drive_accounts`).

Two tariffs are used: one that counts the messages no ceiling bounds, and one under
which every delivery loses value.
-/

namespace Radiata.Reconcile

open Lib
open RangeFingerprint (triple)

structure Tariff where
  message : Message → ℕ
  claims : List Triple → ℕ
  round : ℕ
  done : ℕ
  rows : ℕ
  done_le : ∀ lane token, message (.done lane token) ≤ done
  rows_le : ∀ lane carried, message (.rows lane carried) ≤ rows
  respond_le : ∀ (e : Engine) (ts : List Triple),
    ((e.offerMessages ts ++ e.needMessages ts).map message).sum +
      rows * (rowsBacklogCeiling * (ts.flatMap e.pushesFor).length) ≤ claims ts
  claims_mono : ∀ {ts ts' : List Triple}, ts.Sublist ts' → claims ts ≤ claims ts'

namespace Tariff

variable (τ : Tariff)

def total (messages : List Message) : ℕ := (messages.map τ.message).sum

@[simp] lemma total_nil : τ.total [] = 0 := rfl

@[simp] lemma total_append (as bs : List Message) :
    τ.total (as ++ bs) = τ.total as + τ.total bs := by
  simp [total]

def hint (ranges : List RangeFingerprint) : ℕ :=
  τ.round + τ.claims (ranges.map RangeFingerprint.triple)

def slot (e : Engine) : ℕ := if e.roundOpen then τ.round else 0

def potential (e : Engine) : ℕ :=
  τ.total e.backlog + τ.slot e + (e.pendingHints.map τ.hint).sum

variable (e : Engine)

lemma slot_le : τ.slot e ≤ τ.round := by
  unfold slot
  split_ifs <;> omega

lemma total_rows_le {messages : List Message}
    (h : ∀ m ∈ messages, ∃ lane carried, m = .rows lane carried) :
    τ.total messages ≤ τ.rows * messages.length := by
  induction messages with
  | nil => simp
  | cons m ms ih =>
    obtain ⟨lane, carried, rfl⟩ := h m List.mem_cons_self
    have hrest := ih fun m hm => h m (List.mem_cons_of_mem _ hm)
    have hhead := τ.rows_le lane carried
    simp only [total, List.map_cons, List.sum_cons, List.length_cons, mul_add, mul_one] at hrest ⊢
    omega

lemma potential_push (m : Message) : τ.potential (e.push m) = τ.potential e + τ.message m := by
  have hslot : τ.slot (e.push m) = τ.slot e := rfl
  have hhints : (e.push m).pendingHints = e.pendingHints := rfl
  have htotal : τ.total (e.push m).backlog = τ.total e.backlog + τ.message m := by
    show τ.total (e.backlog ++ [m]) = _
    simp [total]
  rw [potential, potential, hslot, hhints, htotal]
  omega

/-! ## The negotiation -/

lemma potential_processRanges (ts : List Triple) :
    τ.potential (e.processRanges ts) ≤ τ.potential e + τ.claims ts := by
  obtain ⟨messages, history, heq, hout⟩ := e.processRanges_eq ts
  have hrespond : τ.total (e.offerMessages ts ++ e.needMessages ts) +
      τ.rows * (rowsBacklogCeiling * (ts.flatMap e.pushesFor).length) ≤ τ.claims ts :=
    τ.respond_le e ts
  have hrows : τ.total messages ≤ τ.rows * messages.length := by
    refine τ.total_rows_le fun m hm => ?_
    obtain ⟨bound, -, carried, rfl, -⟩ := hout.shape m hm
    exact ⟨_, _, rfl⟩
  have hlen := Nat.mul_le_mul_left τ.rows hout.length_le
  rw [total_append] at hrespond
  rw [heq]
  simp only [potential, total_append, slot]
  omega

lemma potential_initiate (ts : List Triple) :
    τ.potential (e.initiate ts) ≤ τ.potential e + τ.round + τ.claims ts := by
  have h := τ.potential_processRanges
    { e with
      roundOpen := true
      history := { e.history with initiations := e.history.initiations + 1 } } ts
  refine h.trans ?_
  simp only [potential, slot, if_true]
  omega

variable (ranges : List RangeFingerprint)

lemma potential_processHintRanges :
    τ.potential (e.processHintRanges ranges) ≤ τ.potential e + τ.hint ranges := by
  have hsub : (ranges.filterMap fun range =>
      if e.rangeFingerprint range.start range.stop ≠ range.triple.peer then some range.triple
      else none).Sublist (ranges.map triple) := by
    induction ranges with
    | nil => exact .refl _
    | cons range ranges ih =>
      rw [List.filterMap_cons, List.map_cons]
      split_ifs with h
      · exact ih.cons_cons _
      · exact ih.cons _
  have hclaims := τ.claims_mono hsub
  unfold Engine.processHintRanges
  dsimp only
  split_ifs
  · omega
  · refine (τ.potential_initiate e _).trans ?_
    rw [hint]
    omega

lemma potential_foldl_hints (hints : List (List RangeFingerprint)) (e : Engine) :
    τ.potential (hints.foldl Engine.processHintRanges e) ≤
      τ.potential e + (hints.map τ.hint).sum := by
  induction hints generalizing e with
  | nil => simp
  | cons ranges hints ih =>
    have hhead := τ.potential_processHintRanges e ranges
    have hrest := ih (e.processHintRanges ranges)
    rw [List.foldl_cons, List.map_cons, List.sum_cons]
    omega

lemma potential_replayPendingHints : τ.potential e.replayPendingHints ≤ τ.potential e := by
  unfold Engine.replayPendingHints
  split_ifs
  · exact le_rfl
  · refine (τ.potential_foldl_hints e.pendingHints _).trans ?_
    simp only [potential, slot, List.map_nil, List.sum_nil]
    omega

lemma potential_closeRound : τ.potential e.closeRound + τ.slot e ≤ τ.potential e + τ.done := by
  have hreplay := τ.potential_replayPendingHints
    ({ e with roundOpen := false }.push { e with roundOpen := false }.doneMessage)
  have hdone := τ.done_le e.lane (stateToken e.index.root)
  have hclosed : τ.potential { e with roundOpen := false } + τ.slot e = τ.potential e := by
    simp only [potential, slot, Bool.false_eq_true, if_false]
    omega
  rw [potential_push] at hreplay
  refine (Nat.add_le_add_right hreplay _).trans ?_
  show _ + τ.message (.done e.lane (stateToken e.index.root)) + _ ≤ _
  omega

lemma potential_closeRoundOnAgreement :
    τ.potential e.closeRoundOnAgreement ≤ τ.potential e + τ.done := by
  have h := τ.potential_closeRound e
  unfold Engine.closeRoundOnAgreement
  split_ifs <;> omega

lemma potential_settle (generated : ℕ) :
    τ.potential (e.settle generated) ≤ τ.potential e + (τ.done - τ.round) := by
  have h := τ.potential_closeRound e
  unfold Engine.settle
  split_ifs with hquiet
  · have hopen : e.roundOpen = true := by
      simp only [Bool.and_eq_true] at hquiet
      exact hquiet.1.1.1
    rw [slot, if_pos hopen] at h
    omega
  · omega

/-! ## The input -/

def price : Message → ℕ
  | .root _ count xor => τ.done + τ.round + τ.claims [⟨0, maxWord, ⟨count, xor⟩⟩]
  | .hint _ ranges _ => τ.hint ranges
  | .offer _ ranges => τ.claims (ranges.map RangeFingerprint.triple) + τ.done
  | .need _ bounds => τ.rows * rowsBacklogCeiling * bounds.length
  | .rows _ _ => 0
  | .done _ _ => 0

lemma potential_answerNeed (start stop : UInt64) :
    τ.potential (e.answerNeed start stop) ≤ τ.potential e + τ.rows * rowsBacklogCeiling := by
  obtain ⟨messages, needs, history, heq, hout⟩ := e.answerNeed_eq start stop
  have hrows : τ.total messages ≤ τ.rows * messages.length := by
    refine τ.total_rows_le fun m hm => ?_
    obtain ⟨carried, rfl, -⟩ := hout.shape m hm
    exact ⟨_, _, rfl⟩
  have hmul := Nat.mul_le_mul_left τ.rows hout.length_le
  rw [heq]
  simp only [potential, total_append, slot]
  omega

lemma potential_receiveNeed (bounds : List DigestRange) : τ.potential (e.receiveNeed bounds) ≤
      τ.potential e + τ.rows * rowsBacklogCeiling * bounds.length := by
  unfold Engine.receiveNeed
  induction bounds generalizing e with
  | nil => simp
  | cons bound bounds ih =>
    have hhead := τ.potential_answerNeed e bound.start bound.stop
    have hrest := ih (e.answerNeed bound.start bound.stop)
    rw [List.foldl_cons, List.length_cons, mul_add, mul_one]
    omega

lemma potential_receiveRoot (peer : Fingerprint) : τ.potential (e.receiveRoot peer) ≤
      τ.potential e + τ.done + τ.round + τ.claims [⟨0, maxWord, peer⟩] := by
  have hsame : τ.potential { e with peerRoot := some peer } = τ.potential e := rfl
  have hclose := τ.potential_closeRoundOnAgreement { e with peerRoot := some peer }
  have hopen := τ.potential_initiate { e with peerRoot := some peer } [⟨0, maxWord, peer⟩]
  unfold Engine.receiveRoot
  dsimp only
  split_ifs <;> omega

lemma potential_receiveHintRanges :
    τ.potential (e.receiveHintRanges ranges) ≤ τ.potential e + τ.hint ranges := by
  have hfresh := τ.potential_processHintRanges e ranges
  unfold Engine.receiveHintRanges
  split_ifs
  · exact hfresh
  · simp only [potential, slot, List.map_append, List.sum_append, List.map_cons, List.map_nil,
      List.sum_cons, List.sum_nil]
    omega
  · omega

lemma potential_receiveOffer : τ.potential (e.receiveOffer ranges) ≤
      τ.potential e + τ.claims (ranges.map triple) + τ.done := by
  have hrespond := τ.potential_processRanges e (ranges.map triple)
  have hclose := τ.potential_closeRound (e.processRanges (ranges.map triple))
  unfold Engine.receiveOffer
  dsimp only
  split_ifs <;> omega

lemma potential_receiveDone : τ.potential e.receiveDone ≤ τ.potential e := by
  refine (τ.potential_replayPendingHints { e with roundOpen := false }).trans ?_
  simp only [potential, slot, Bool.false_eq_true, if_false]
  omega

lemma potential_of_refills {e e' : Engine} (h : Engine.Refills e e') :
    τ.potential e' = τ.potential e := by
  rw [potential, potential, slot, slot, h.backlog, h.roundOpen, h.pendingHints]

/-- **A received message is worth its price**, whether or not it is accepted. -/
theorem potential_applyMessage (sha256 : Hash) (e : Engine) (m : Message) :
    τ.potential (e.applyMessage sha256 m).2 ≤ τ.potential e + τ.price m := by
  have hclear : τ.potential { e with awaitingResponse := false } = τ.potential e := rfl
  unfold Engine.applyMessage
  split_ifs with hlane
  · exact Nat.le_add_right _ _
  cases m with
  | root lane count xor =>
    have h := τ.potential_receiveRoot { e with awaitingResponse := false } ⟨count, xor⟩
    simp only [price]
    omega
  | hint lane ranges rows =>
    have hrows := τ.potential_of_refills (Engine.applyRows_refills sha256 e rows)
    dsimp only
    cases happly : e.applyRows sha256 rows with
    | mk result e' =>
      rw [happly] at hrows
      cases result with
      | error err => exact hrows.le.trans (Nat.le_add_right _ _)
      | ok _ =>
        have h := τ.potential_receiveHintRanges e' ranges
        simp only [price] at hrows ⊢
        omega
  | offer lane ranges =>
    have h := τ.potential_receiveOffer { e with awaitingResponse := false } ranges
    simp only [price]
    omega
  | need lane bounds =>
    have h := τ.potential_receiveNeed { e with awaitingResponse := false } bounds
    simp only [price]
    omega
  | rows lane rows =>
    have hrows := τ.potential_of_refills
      (Engine.applyRows_refills sha256 { e with awaitingResponse := false } rows)
    dsimp only
    cases happly : ({ e with awaitingResponse := false } : Engine).applyRows sha256 rows with
    | mk result e' =>
      rw [happly] at hrows
      cases result with
      | error err => exact (hrows.trans hclear).le
      | ok _ => exact (hrows.trans hclear).le
  | done lane token =>
    have h := τ.potential_receiveDone { e with awaitingResponse := false }
    simp only [price]
    omega

/-! ## The drive -/

lemma potential_drainBacklog (out : List Message) :
    τ.total (e.drainBacklog out).1 + τ.potential (e.drainBacklog out).2 =
      τ.total out + τ.potential e := by
  have hstream := congrArg τ.total (e.drainBacklog_stream out)
  rw [total_append, total_append] at hstream
  have hslot : τ.slot (e.drainBacklog out).2 = τ.slot e := rfl
  have hhints : (e.drainBacklog out).2.pendingHints = e.pendingHints := rfl
  rw [potential, potential, hslot, hhints]
  omega

lemma potential_finish (out : List Message) (generated : ℕ) :
    τ.total (e.finish out generated).1 + τ.potential (e.finish out generated).2 ≤
      τ.total out + τ.potential e + (τ.done - τ.round) := by
  have h1 := τ.potential_drainBacklog e out
  have h2 := τ.potential_settle (e.drainBacklog out).2 generated
  have h3 := τ.potential_drainBacklog ((e.drainBacklog out).2.settle generated)
    (e.drainBacklog out).1
  rw [Engine.finish]
  dsimp only
  omega

lemma potential_opened :
    τ.total (e.backlog.take messageBudgetPerDrive) + τ.potential e.opened = τ.potential e := by
  have hstream := congrArg τ.total (List.take_append_drop messageBudgetPerDrive e.backlog)
  rw [total_append] at hstream
  have hfields : e.opened.roundOpen = e.roundOpen ∧ e.opened.pendingHints = e.pendingHints := by
    unfold Engine.opened Engine.expireNeeds
    split_ifs <;> exact ⟨rfl, rfl⟩
  have hbacklog : e.opened.backlog = e.backlog.drop messageBudgetPerDrive := rfl
  rw [potential, potential, slot, slot, hfields.1, hfields.2, hbacklog]
  omega

end Tariff

def sent : Result (List Message) → List Message
  | .ok out => out
  | .error _ => []

/-- **A drive sends and keeps no more than the engine and the input were worth.** -/
theorem Tariff.drive_accounts (τ : Tariff) (sha256 : Hash) (e : Engine) (input : Drive) (cost : ℕ)
    (haccept : τ.potential (e.opened.accept sha256 input).2 ≤ τ.potential e.opened + cost) :
    τ.total (sent (e.drive sha256 input).1) + τ.potential (e.drive sha256 input).2 ≤
      τ.potential e + cost + (τ.done - τ.round) := by
  have hopened := τ.potential_opened e
  cases h : e.opened.accept sha256 input with
  | mk result e' =>
    rw [h] at haccept
    dsimp only at haccept
    cases result with
    | error err =>
      rw [Engine.drive_of_error h]
      simp only [sent, total_nil]
      omega
    | ok generated =>
      have hfinish := τ.potential_finish e' (e.backlog.take messageBudgetPerDrive) generated
      rw [Engine.drive_of_ok h]
      simp only [sent]
      omega

end Radiata.Reconcile
