import Radiata.Reconcile.Negotiation

/-!
# How a drive is composed

The negotiation is a sequence of a few moves: responding to claims, answering a
bound, pushing the DONE receipt, and bookkeeping on the flags and the held hints.
`Move` lists them, each with the grounds it needs, and every function of the
negotiation is shown to be a run of moves; what all moves preserve, all functions
preserve.  In particular a run only appends to the backlog and leaves the rows alone
(`Moves.extends`).

A drive is then three drains around an input step and a quiescence step
(`drive_of_ok`), and since draining moves messages from the front of the backlog to
the end of the output, output and backlog together are the old backlog followed by
what the drive queued.
-/

namespace Radiata.Reconcile

open Lib
open List (append_assoc append_nil not_mem_nil prefix_append)

/-- What entitles an engine to work: the claims it may respond to, the bounds it may
answer and the hints it may hold. -/
structure Grounds where
  claim : Triple → Prop
  asked : DigestRange → Prop
  hint : List RangeFingerprint → Prop
  claim_of_hint : ∀ {ranges}, hint ranges → ∀ range ∈ ranges, claim range.triple

namespace Grounds

variable (g : Grounds) (e : Engine)

def Holds : Prop := ∀ ranges ∈ e.pendingHints, g.hint ranges

def Admits : Message → Prop
  | .root _ count xor => g.claim ⟨0, maxWord, ⟨count, xor⟩⟩
  | .hint _ ranges _ => g.hint ranges
  | .offer _ ranges => ∀ range ∈ ranges, g.claim range.triple
  | .need _ bounds => ∀ bound ∈ bounds, g.asked bound
  | .rows _ _ | .done _ _ => True

def Entitles : Drive → Prop
  | .message m => g.Holds e ∧ g.Admits m
  | .rootExchange => ∀ peer, e.peerRoot = some peer → g.claim ⟨0, maxWord, peer⟩
  | .localChange | .localChangeEager | .drain => g.Holds e

def any : Grounds := ⟨fun _ => True, fun _ => True, fun _ => True, fun _ _ _ => trivial⟩

lemma any_holds : any.Holds e := fun _ _ => trivial

lemma any_admits (m : Message) : any.Admits m := by
  cases m with
  | root | hint | rows | done => trivial
  | offer lane ranges | need lane bounds => exact fun _ _ => trivial

lemma any_entitles (input : Drive) : any.Entitles e input := by
  cases input with
  | message m => exact ⟨any_holds e, any_admits m⟩
  | rootExchange => exact fun _ _ => trivial
  | localChange | localChangeEager | drain => exact any_holds e

end Grounds

def Message.carried : Message → List Row
  | rows _ brought => brought
  | hint _ _ brought => brought
  | _ => []

lemma mem_carried_of_mem_payload {m : Message} {row : Row} (h : row ∈ m.payload) :
    row ∈ m.carried := by
  cases m with
  | rows lane brought => exact h
  | root | hint | offer | need | done => exact absurd h not_mem_nil

namespace Engine

inductive Move (g : Grounds) : Engine → Engine → Prop where
  | respond {e : Engine} (ts : List Triple) (h : ∀ t ∈ ts, g.claim t) :
      Move g e (e.processRanges ts)
  | answer {e : Engine} (bound : DigestRange) (h : g.asked bound) :
      Move g e (e.answerNeed bound.start bound.stop)
  | receipt {e : Engine} : Move g e (e.push e.doneMessage)
  | openRound {e : Engine} :
      Move g e { e with
        roundOpen := true
        history := { e.history with initiations := e.history.initiations + 1 } }
  | closeSlot {e : Engine} : Move g e { e with roundOpen := false }
  | spend {e : Engine} : Move g e { e with pendingHints := [] }
  | hold {e : Engine} (ranges : List RangeFingerprint) (h : g.hint ranges)
      (hlt : e.pendingHints.length < hintPendingMax) :
      Move g e { e with pendingHints := e.pendingHints ++ [ranges] }

abbrev Moves (g : Grounds) : Engine → Engine → Prop := Relation.ReflTransGen (Move g)

section Moves

variable {g : Grounds} {e : Engine}

lemma Moves.foldl {α : Type} {f : Engine → α → Engine} {as : List α}
    (hf : ∀ e, ∀ a ∈ as, Moves g e (f e a)) (e : Engine) : Moves g e (as.foldl f e) := by
  induction as generalizing e with
  | nil => exact .refl
  | cons a as ih =>
    exact (hf e a List.mem_cons_self).trans
      (ih (fun e b hb => hf e b (List.mem_cons_of_mem _ hb)) (f e a))

lemma initiate_moves {ts : List Triple} (h : ∀ t ∈ ts, g.claim t) :
    Moves g e (e.initiate ts) :=
  .tail (.single .openRound) (.respond ts h)

variable {ranges : List RangeFingerprint}

lemma processHintRanges_moves (h : ∀ range ∈ ranges, g.claim range.triple) :
    Moves g e (e.processHintRanges ranges) := by
  unfold processHintRanges
  dsimp only
  split_ifs
  · exact .refl
  · refine initiate_moves fun t ht => ?_
    obtain ⟨range, hrange, hsome⟩ := List.mem_filterMap.mp ht
    split_ifs at hsome
    rw [← Option.some.inj hsome]
    exact h range hrange

section

variable (h : g.Holds e)
include h

lemma replayPendingHints_moves : Moves g e e.replayPendingHints := by
  unfold replayPendingHints
  split_ifs
  · exact .refl
  · exact .head .spend (Moves.foldl
      (fun e ranges hranges => processHintRanges_moves (g.claim_of_hint (h ranges hranges))) _)

lemma closeRound_moves : Moves g e e.closeRound :=
  .head .closeSlot (.head .receipt (replayPendingHints_moves h))

lemma closeRoundOnAgreement_moves : Moves g e e.closeRoundOnAgreement := by
  unfold closeRoundOnAgreement
  split_ifs
  · exact closeRound_moves h
  · exact .refl

lemma receiveRoot_moves {peer : Fingerprint} (hpeer : g.claim ⟨0, maxWord, peer⟩) :
    Moves g { e with peerRoot := some peer } (e.receiveRoot peer) := by
  unfold receiveRoot
  dsimp only
  split_ifs
  · exact closeRoundOnAgreement_moves h
  · refine initiate_moves fun t ht => ?_
    rwa [List.mem_singleton.mp ht]
  · exact .refl

end

lemma receiveHintRanges_moves (h : g.hint ranges) : Moves g e (e.receiveHintRanges ranges) := by
  unfold receiveHintRanges
  split_ifs with hclosed hheld
  · exact processHintRanges_moves (g.claim_of_hint h)
  · simp only [Bool.and_eq_true, decide_eq_true_eq] at hheld
    exact .single (.hold ranges h hheld.2)
  · exact .refl

lemma processRanges_pendingHints (e : Engine) (ts : List Triple) :
    (e.processRanges ts).pendingHints = e.pendingHints := by
  obtain ⟨messages, history, heq, -⟩ := e.processRanges_eq ts
  rw [heq]

lemma receiveOffer_moves (h : g.Holds e) (hranges : ∀ range ∈ ranges, g.claim range.triple) :
    Moves g e (e.receiveOffer ranges) := by
  have hrespond : Move g e (e.processRanges (ranges.map RangeFingerprint.triple)) := by
    refine .respond _ fun t ht => ?_
    obtain ⟨range, hrange, rfl⟩ := List.mem_map.mp ht
    exact hranges range hrange
  unfold receiveOffer
  dsimp only
  split_ifs
  · refine .head hrespond (closeRound_moves ?_)
    rw [Grounds.Holds, processRanges_pendingHints]
    exact h
  · exact .single hrespond

lemma receiveNeed_moves {bounds : List DigestRange} (h : ∀ bound ∈ bounds, g.asked bound) :
    Moves g e (e.receiveNeed bounds) :=
  Moves.foldl (fun _ bound hbound => .single (.answer bound (h bound hbound))) e

lemma receiveDone_moves (h : g.Holds e) : Moves g e e.receiveDone :=
  .head .closeSlot (replayPendingHints_moves h)

lemma settle_moves (generated : ℕ) (h : g.Holds e) : Moves g e (e.settle generated) := by
  unfold settle
  split_ifs
  · exact closeRound_moves h
  · exact .refl

end Moves

/-! ## What a run of moves leaves alone -/

structure Extends (e e' : Engine) : Prop where
  lane : e'.lane = e.lane
  index : e'.index = e.index
  peerRoot : e'.peerRoot = e.peerRoot
  dirty : e'.dirty = e.dirty
  eager : e'.eager = e.eager
  backlog : e.backlog <+: e'.backlog

variable (e : Engine)

lemma Extends.refl : Extends e e := ⟨rfl, rfl, rfl, rfl, rfl, List.prefix_rfl⟩

lemma Extends.trans {a b c : Engine} (h : Extends a b) (h' : Extends b c) : Extends a c :=
  ⟨h'.lane.trans h.lane, h'.index.trans h.index, h'.peerRoot.trans h.peerRoot,
    h'.dirty.trans h.dirty, h'.eager.trans h.eager, h.backlog.trans h'.backlog⟩

lemma answerNeed_extends (start stop : UInt64) : Extends e (e.answerNeed start stop) := by
  obtain ⟨messages, needs, history, heq, -⟩ := e.answerNeed_eq start stop
  rw [heq]
  exact ⟨rfl, rfl, rfl, rfl, rfl, prefix_append _ _⟩

lemma processRanges_extends (ts : List Triple) : Extends e (e.processRanges ts) := by
  obtain ⟨messages, history, heq, -⟩ := e.processRanges_eq ts
  rw [heq]
  exact ⟨rfl, rfl, rfl, rfl, rfl, prefix_append _ _⟩

variable {g : Grounds} {e e' : Engine}

lemma Move.extends (h : Move g e e') : Extends e e' := by
  cases h with
  | respond ts => exact e.processRanges_extends ts
  | answer bound => exact e.answerNeed_extends bound.start bound.stop
  | receipt => exact ⟨rfl, rfl, rfl, rfl, rfl, prefix_append _ _⟩
  | openRound | closeSlot | spend | hold => exact ⟨rfl, rfl, rfl, rfl, rfl, List.prefix_rfl⟩

/-- **The negotiation appends to the backlog and leaves the rows alone.** -/
theorem Moves.extends (h : Moves g e e') : Extends e e' := by
  induction h with
  | refl => exact .refl e
  | tail _ hmove ih => exact ih.trans hmove.extends

lemma Moves.holds (h : Moves g e e') (hheld : g.Holds e) : g.Holds e' := by
  induction h with
  | refl => exact hheld
  | @tail e₁ _ _ hmove ih =>
    cases hmove with
    | respond ts =>
      rw [Grounds.Holds, processRanges_pendingHints]
      exact ih
    | answer bound =>
      obtain ⟨messages, needs, history, heq, -⟩ := e₁.answerNeed_eq bound.start bound.stop
      rw [heq]
      exact ih
    | receipt | openRound | closeSlot => exact ih
    | spend => exact fun _ hmem => absurd hmem not_mem_nil
    | hold ranges hranges =>
      intro hint hhint
      rcases List.mem_append.mp hhint with hold | hnew
      · exact ih hint hold
      · rw [List.mem_singleton.mp hnew]
        exact hranges

/-! ## Rows -/

structure Refills (e e' : Engine) : Prop where
  lane : e'.lane = e.lane
  peerRoot : e'.peerRoot = e.peerRoot
  roundOpen : e'.roundOpen = e.roundOpen
  awaitingResponse : e'.awaitingResponse = e.awaitingResponse
  backlog : e'.backlog = e.backlog
  pendingNeeds : e'.pendingNeeds = e.pendingNeeds
  pendingHints : e'.pendingHints = e.pendingHints
  history : e'.history = e.history

lemma Refills.refl (e : Engine) : Refills e e := ⟨rfl, rfl, rfl, rfl, rfl, rfl, rfl, rfl⟩

lemma Refills.trans {a b c : Engine} (h : Refills a b) (h' : Refills b c) : Refills a c :=
  ⟨h'.lane.trans h.lane, h'.peerRoot.trans h.peerRoot, h'.roundOpen.trans h.roundOpen,
    h'.awaitingResponse.trans h.awaitingResponse, h'.backlog.trans h.backlog,
    h'.pendingNeeds.trans h.pendingNeeds, h'.pendingHints.trans h.pendingHints,
    h'.history.trans h.history⟩

section

variable (e)

variable (digest : UInt64)

lemma markDirty_refills : Refills e (e.markDirty digest) := by
  unfold markDirty
  cases e.dirty with
  | none => exact .refl e
  | some bounds =>
    dsimp only
    split_ifs <;> exact ⟨rfl, rfl, rfl, rfl, rfl, rfl, rfl, rfl⟩

lemma markDirty_index : (e.markDirty digest).index = e.index := by
  unfold markDirty
  cases e.dirty with
  | none => rfl
  | some bounds =>
    dsimp only
    split_ifs <;> rfl

lemma noteEager_refills (rowBytes : ℕ) : Refills e (e.noteEager digest rowBytes) := by
  unfold noteEager
  split_ifs <;> exact ⟨rfl, rfl, rfl, rfl, rfl, rfl, rfl, rfl⟩

lemma noteEager_index (rowBytes : ℕ) : (e.noteEager digest rowBytes).index = e.index := by
  unfold noteEager
  split_ifs <;> rfl

lemma store_refills (row : Row) (eager : Bool) : Refills e (e.store digest row eager) := by
  have hindex : Refills e { e with index := (e.index.insert digest row).2 } :=
    ⟨rfl, rfl, rfl, rfl, rfl, rfl, rfl, rfl⟩
  unfold store
  dsimp only
  cases (e.index.insert digest row).1 with
  | some previous => exact hindex
  | none =>
    cases eager with
    | false => exact hindex.trans (markDirty_refills _ digest)
    | true =>
      exact (hindex.trans (markDirty_refills _ digest)).trans (noteEager_refills _ digest _)

lemma store_index (row : Row) (eager : Bool) :
    (e.store digest row eager).index = (e.index.insert digest row).2 := by
  unfold store
  dsimp only
  cases (e.index.insert digest row).1 with
  | some previous => rfl
  | none =>
    cases eager with
    | false => exact markDirty_index _ digest
    | true => exact (noteEager_index _ digest _).trans (markDirty_index _ digest)

end

variable (sha256 : Hash)

lemma applyRows_refills (e : Engine) (rows : List Row) :
    Refills e (e.applyRows sha256 rows).2 := by
  induction rows generalizing e with
  | nil => exact .refl e
  | cons row rows ih =>
    rw [applyRows]
    cases itemDigest sha256 row.key row.content with
    | error err => exact .refl e
    | ok digest => exact (e.store_refills digest row false).trans (ih _)

/-! ## Received messages -/

def hear (e : Engine) : Engine := { e with awaitingResponse := false }

inductive IntakeStep (sha256 : Hash) (m : Message) : Engine → Engine → Prop where
  | hear {e : Engine} : IntakeStep sha256 m e e.hear
  | learn {e : Engine} {lane : LaneId} {count xor : UInt64} (h : m = .root lane count xor) :
      IntakeStep sha256 m e { e with peerRoot := some ⟨count, xor⟩ }
  | store {e : Engine} {digest : UInt64} {row : Row} (hrow : row ∈ m.carried)
      (hdigest : itemDigest sha256 row.key row.content = .ok digest) :
      IntakeStep sha256 m e (e.store digest row false)

abbrev Intake (sha256 : Hash) (m : Message) : Engine → Engine → Prop :=
  Relation.ReflTransGen (IntakeStep sha256 m)

structure Receives (e e' : Engine) : Prop where
  lane : e'.lane = e.lane
  roundOpen : e'.roundOpen = e.roundOpen
  backlog : e'.backlog = e.backlog
  pendingNeeds : e'.pendingNeeds = e.pendingNeeds
  pendingHints : e'.pendingHints = e.pendingHints
  history : e'.history = e.history

variable {m : Message}

lemma Intake.receives {sha256 : Hash} (h : Intake sha256 m e e') : Receives e e' := by
  induction h with
  | refl => exact ⟨rfl, rfl, rfl, rfl, rfl, rfl⟩
  | tail _ hstep ih =>
    obtain ⟨h1, h2, h3, h4, h5, h6⟩ := ih
    cases hstep with
    | hear => exact ⟨h1, h2, h3, h4, h5, h6⟩
    | learn => exact ⟨h1, h2, h3, h4, h5, h6⟩
    | store hrow hdigest =>
      have hstore := store_refills (by assumption) (by assumption) (by assumption) false
      exact ⟨hstore.lane.trans h1, hstore.roundOpen.trans h2, hstore.backlog.trans h3,
        hstore.pendingNeeds.trans h4, hstore.pendingHints.trans h5, hstore.history.trans h6⟩

lemma applyRows_intake (m : Message) {rows : List Row} (h : rows ⊆ m.carried) (e : Engine) :
    Intake sha256 m e (e.applyRows sha256 rows).2 := by
  induction rows generalizing e with
  | nil => exact .refl
  | cons row rows ih =>
    obtain ⟨hrow, hrows⟩ := List.cons_subset.mp h
    rw [applyRows]
    cases hdigest : itemDigest sha256 row.key row.content with
    | error err => exact .refl
    | ok digest => exact .head (.store hrow hdigest) (ih hrows _)

def dispatch (sha256 : Hash) (e : Engine) : Message → Result ℕ × Engine
  | .root _ count xor =>
    (.ok ((e.hear.receiveRoot ⟨count, xor⟩).backlog.length - e.backlog.length),
      e.hear.receiveRoot ⟨count, xor⟩)
  | .hint _ ranges rows =>
    match e.applyRows sha256 rows with
    | (.error err, e') => (.error err, e')
    | (.ok (), e') => (.ok ((e'.receiveHintRanges ranges).backlog.length - e.backlog.length),
        e'.receiveHintRanges ranges)
  | .offer _ ranges =>
    (.ok ((e.hear.receiveOffer ranges).backlog.length - e.backlog.length),
      e.hear.receiveOffer ranges)
  | .need _ bounds =>
    (.ok ((e.hear.receiveNeed bounds).backlog.length - e.backlog.length),
      e.hear.receiveNeed bounds)
  | .rows _ rows =>
    match e.hear.applyRows sha256 rows with
    | (.error err, e') => (.error err, e')
    | (.ok (), e') => (.ok (e'.backlog.length - e.backlog.length), e')
  | .done _ _ =>
    (.ok (e.hear.receiveDone.backlog.length - e.backlog.length), e.hear.receiveDone)

lemma applyMessage_of_lane (h : m.lane = e.lane) :
    e.applyMessage sha256 m = e.dispatch sha256 m := by
  unfold applyMessage
  rw [if_neg (not_not.mpr h)]
  cases m <;> rfl

/-- **A received message is taken in and then answered by moves.** -/
theorem applyMessage_moves (hheld : g.Holds e) (hm : g.Admits m) :
    ∃ e', Intake sha256 m e e' ∧ Moves g e' (e.applyMessage sha256 m).2 := by
  have hhear : Intake sha256 m e e.hear := .single .hear
  by_cases hlane : m.lane = e.lane
  · rw [applyMessage_of_lane sha256 hlane]
    cases m with
    | root lane count xor =>
      exact ⟨{ e.hear with peerRoot := some ⟨count, xor⟩ }, hhear.tail (.learn rfl),
        receiveRoot_moves (e := e.hear) hheld hm⟩
    | hint lane ranges rows =>
      have hrows := applyRows_intake sha256 (.hint lane ranges rows) (List.Subset.refl rows) e
      rw [dispatch]
      cases happly : e.applyRows sha256 rows with
      | mk result e' =>
        rw [happly] at hrows
        cases result with
        | error err => exact ⟨e', hrows, .refl⟩
        | ok _ => exact ⟨e', hrows, receiveHintRanges_moves hm⟩
    | offer lane ranges => exact ⟨_, hhear, receiveOffer_moves hheld hm⟩
    | need lane bounds => exact ⟨_, hhear, receiveNeed_moves hm⟩
    | rows lane rows =>
      have hrows := hhear.trans
        (applyRows_intake sha256 (.rows lane rows) (List.Subset.refl rows) e.hear)
      rw [dispatch]
      cases happly : e.hear.applyRows sha256 rows with
      | mk result e' =>
        rw [happly] at hrows
        cases result with
        | error err => exact ⟨e', hrows, .refl⟩
        | ok _ => exact ⟨e', hrows, .refl⟩
    | done lane token => exact ⟨_, hhear, receiveDone_moves hheld⟩
  · unfold applyMessage
    rw [if_pos hlane]
    exact ⟨e, .refl, .refl⟩

/-! ## The drive -/

def opened (e : Engine) : Engine :=
  { e.expireNeeds with backlog := e.backlog.drop messageBudgetPerDrive }

def finish (e : Engine) (out : List Message) (generated : ℕ) : List Message × Engine :=
  let (out, e) := e.drainBacklog out
  (e.settle generated).drainBacklog out

variable {sha256 : Hash} {e e' : Engine} {input : Drive}

lemma expireNeeds_backlog (e : Engine) : e.expireNeeds.backlog = e.backlog := by
  unfold expireNeeds
  split_ifs <;> rfl

lemma drainBacklog_expireNeeds :
    e.expireNeeds.drainBacklog [] = (e.backlog.take messageBudgetPerDrive, e.opened) := by
  simp [drainBacklog, opened, expireNeeds_backlog]

variable {err : Error}

lemma drive_of_error (h : e.opened.accept sha256 input = (.error err, e')) :
    e.drive sha256 input = (.error err, e') := by
  rw [drive, drainBacklog_expireNeeds]
  simp only [h]

variable {generated : ℕ}

lemma drive_of_ok (h : e.opened.accept sha256 input = (.ok generated, e')) :
    e.drive sha256 input =
      (.ok (e'.finish (e.backlog.take messageBudgetPerDrive) generated).1,
        (e'.finish (e.backlog.take messageBudgetPerDrive) generated).2) := by
  rw [drive, drainBacklog_expireNeeds]
  simp only [h]
  rfl

lemma drive_keeps {P : Engine → Prop} (haccept : P (e.opened.accept sha256 input).2)
    (hfinish : ∀ e' out generated, P e' → P (finish e' out generated).2) :
    P (e.drive sha256 input).2 := by
  cases h : e.opened.accept sha256 input with
  | mk result e' =>
    rw [h] at haccept
    cases result with
    | error err =>
      rw [drive_of_error h]
      exact haccept
    | ok generated =>
      rw [drive_of_ok h]
      exact hfinish _ _ _ haccept

section

variable (e : Engine) (out : List Message)

lemma drainBacklog_stream :
    (e.drainBacklog out).1 ++ (e.drainBacklog out).2.backlog = out ++ e.backlog := by
  simp [drainBacklog]

lemma length_drainBacklog_le {out : List Message} (h : out.length ≤ messageBudgetPerDrive) :
    (e.drainBacklog out).1.length ≤ messageBudgetPerDrive := by
  rw [drainBacklog, List.length_append, List.length_take]
  omega

variable (generated : ℕ)

lemma length_finish_le {out : List Message} (h : out.length ≤ messageBudgetPerDrive) :
    (e.finish out generated).1.length ≤ messageBudgetPerDrive :=
  length_drainBacklog_le _ (length_drainBacklog_le e h)

lemma finish_backlog_eq_nil (h : (e.finish out generated).1.length < messageBudgetPerDrive) :
    (e.finish out generated).2.backlog = [] := by
  rw [finish] at h ⊢
  simp only [drainBacklog, List.length_append, List.length_take] at h ⊢
  rw [List.drop_eq_nil_iff]
  omega

lemma finish_stream : (e.finish out generated).1 ++ (e.finish out generated).2.backlog =
      (e.drainBacklog out).1 ++ ((e.drainBacklog out).2.settle generated).backlog :=
  drainBacklog_stream _ _

end

/-! ## The input step -/

lemma weighPeerRoot_moves (hheld : g.Holds e)
    (h : ∀ peer, e.peerRoot = some peer → g.claim ⟨0, maxWord, peer⟩) :
    Moves g e e.weighPeerRoot := by
  unfold weighPeerRoot
  cases hpeer : e.peerRoot with
  | none => exact .refl
  | some peer =>
    dsimp only
    split_ifs
    · exact closeRoundOnAgreement_moves hheld
    · refine initiate_moves fun t ht => ?_
      rw [List.mem_singleton.mp ht]
      exact h peer hpeer
    · exact .refl

def announcement (e : Engine) : Drive → List Message
  | .localChange =>
    if e.changedRanges.isEmpty then [] else [.hint e.lane e.changedRanges []]
  | .localChangeEager =>
    if e.changedRanges.isEmpty then []
    else [.hint e.lane e.changedRanges (eagerRows e.index 0 e.eager)]
  | .rootExchange => [.root e.lane e.index.root.count e.index.root.xor]
  | .message _ | .drain => []

/-- The engine once an input is taken in and announced, before the negotiation it
causes. -/
inductive Prepared (sha256 : Hash) (e : Engine) : Drive → Engine → Prop where
  | message {m : Message} {e₁ : Engine} (h : Intake sha256 m e e₁) :
      Prepared sha256 e (.message m) e₁
  | localChange :
      Prepared sha256 e .localChange { e with
        dirty := some [], eager := [], backlog := e.backlog ++ e.announcement .localChange }
  | localChangeEager :
      Prepared sha256 e .localChangeEager { e with
        dirty := some [], eager := [], backlog := e.backlog ++ e.announcement .localChangeEager }
  | rootExchange :
      Prepared sha256 e .rootExchange { e with
        eager := [], awaitingResponse := false, pendingHints := []
        backlog := e.backlog ++ e.announcement .rootExchange }
  | drain : Prepared sha256 e .drain e

lemma mem_announcement (h : m ∈ e.announcement input) :
    (input = .rootExchange ∧ m = .root e.lane e.index.root.count e.index.root.xor) ∨
    (input = .localChange ∧ m = .hint e.lane e.changedRanges []) ∨
    (input = .localChangeEager ∧
      m = .hint e.lane e.changedRanges (eagerRows e.index 0 e.eager)) := by
  cases input with
  | message | drain => exact absurd h not_mem_nil
  | rootExchange => exact Or.inl ⟨rfl, List.mem_singleton.mp h⟩
  | localChange =>
    unfold announcement at h
    split_ifs at h
    · exact absurd h not_mem_nil
    · exact Or.inr (Or.inl ⟨rfl, List.mem_singleton.mp h⟩)
  | localChangeEager =>
    unfold announcement at h
    split_ifs at h
    · exact absurd h not_mem_nil
    · exact Or.inr (Or.inr ⟨rfl, List.mem_singleton.mp h⟩)

lemma isRows_of_mem_announcement (h : m ∈ e.announcement input) : m.isRows = false := by
  rcases mem_announcement h with ⟨-, rfl⟩ | ⟨-, rfl⟩ | ⟨-, rfl⟩ <;> rfl

lemma driveLocalChange_eq (e : Engine) (eager : Bool) :
    (e.driveLocalChange eager).2 = { e with
      dirty := some [], eager := []
      backlog := e.backlog ++
        e.announcement (if eager then .localChangeEager else .localChange) } := by
  unfold driveLocalChange
  by_cases hnone : e.changedRanges.isEmpty = true
  · cases eager <;> simp [announcement, hnone]
  · cases eager <;> simp [announcement, hnone, push]

/-- **The input step is a preparation and a run of moves.** -/
theorem accept_moves (sha256 : Hash) (h : g.Entitles e input) :
    ∃ e₁, Prepared sha256 e input e₁ ∧ Moves g e₁ (e.accept sha256 input).2 := by
  cases input with
  | message m =>
    obtain ⟨e₁, hintake, hmoves⟩ := applyMessage_moves sha256 h.1 h.2
    exact ⟨e₁, .message hintake, hmoves⟩
  | localChange =>
    refine ⟨_, .localChange, ?_⟩
    show Moves g _ (e.driveLocalChange false).2
    rw [driveLocalChange_eq]
    exact .refl
  | localChangeEager =>
    refine ⟨_, .localChangeEager, ?_⟩
    show Moves g _ (e.driveLocalChange true).2
    rw [driveLocalChange_eq]
    exact .refl
  | rootExchange =>
    exact ⟨_, .rootExchange,
      weighPeerRoot_moves (fun _ hmem => absurd hmem not_mem_nil) h⟩
  | drain => exact ⟨e, .drain, .refl⟩

namespace Prepared

variable {e₁ : Engine}

lemma backlog (h : Prepared sha256 e input e₁) :
    e₁.backlog = e.backlog ++ e.announcement input := by
  cases h with
  | message hintake => rw [hintake.receives.backlog, announcement, append_nil]
  | localChange | localChangeEager | rootExchange => rfl
  | drain => rw [announcement, append_nil]

end Prepared

lemma accept_prefix (sha256 : Hash) (e : Engine) (input : Drive) :
    e.backlog <+: (e.accept sha256 input).2.backlog := by
  obtain ⟨e₁, hprepared, hmoves⟩ := accept_moves sha256 (Grounds.any_entitles e input)
  refine List.IsPrefix.trans ?_ hmoves.extends.backlog
  rw [hprepared.backlog]
  exact prefix_append _ _

lemma accept_error_backlog (h : e.accept sha256 input = (.error err, e')) :
    e'.backlog = e.backlog := by
  cases input with
  | message m =>
    change e.applyMessage sha256 m = (.error err, e') at h
    by_cases hlane : m.lane = e.lane
    · rw [applyMessage_of_lane sha256 hlane] at h
      cases m with
      | root | offer | need | done => cases h
      | hint lane ranges rows =>
        have hrows := (e.applyRows_refills sha256 rows).backlog
        rw [dispatch] at h
        cases happly : e.applyRows sha256 rows with
        | mk result e₁ =>
          rw [happly] at h hrows
          cases result with
          | error err' =>
            obtain rfl := (Prod.mk.inj h).2
            exact hrows
          | ok _ => cases h
      | rows lane rows =>
        have hrows := (e.hear.applyRows_refills sha256 rows).backlog
        rw [dispatch] at h
        cases happly : e.hear.applyRows sha256 rows with
        | mk result e₁ =>
          rw [happly] at h hrows
          cases result with
          | error err' =>
            obtain rfl := (Prod.mk.inj h).2
            exact hrows
          | ok _ => cases h
    · unfold applyMessage at h
      rw [if_pos hlane] at h
      obtain rfl := (Prod.mk.inj h).2
      rfl
  | localChange | localChangeEager | rootExchange | drain => cases h

def queued (sha256 : Hash) (e : Engine) (input : Drive) : List Message :=
  match e.drive sha256 input with
  | (.ok out, e') => (out ++ e'.backlog).drop e.backlog.length
  | (.error _, _) => []

variable {accepted settled : List Message}

section

variable (haccepted : e'.backlog = e.opened.backlog ++ accepted)
  (hsettled : ((e'.drainBacklog (e.backlog.take messageBudgetPerDrive)).2.settle
    generated).backlog = (e'.drainBacklog (e.backlog.take messageBudgetPerDrive)).2.backlog ++
      settled)
include haccepted hsettled

/-- The messages of a successful drive: the old backlog, what the input queued, and
what the quiescence step queued. -/
theorem drive_stream : (e'.finish (e.backlog.take messageBudgetPerDrive) generated).1 ++
        (e'.finish (e.backlog.take messageBudgetPerDrive) generated).2.backlog =
      e.backlog ++ (accepted ++ settled) := by
  have hopened : e.opened.backlog = e.backlog.drop messageBudgetPerDrive := rfl
  rw [finish_stream, hsettled, ← append_assoc, drainBacklog_stream, haccepted, hopened,
    ← append_assoc, List.take_append_drop, append_assoc]

lemma queued_of_ok (h : e.opened.accept sha256 input = (.ok generated, e')) :
    e.queued sha256 input = accepted ++ settled := by
  rw [queued, drive_of_ok h]
  dsimp only
  rw [drive_stream haccepted hsettled, List.drop_left]

end

lemma queued_of_error (h : e.opened.accept sha256 input = (.error err, e')) :
    e.queued sha256 input = [] := by
  rw [queued, drive_of_error h]

/-- **What a drive does to the queue.**  It appends what it queued and takes one
budget from the front; the budget is what it returns, unless the input fails. -/
theorem drive_backlog (sha256 : Hash) (e : Engine) (input : Drive) :
    (e.drive sha256 input).2.backlog =
        (e.backlog ++ e.queued sha256 input).drop messageBudgetPerDrive ∧
      ∀ out, (e.drive sha256 input).1 = .ok out →
        out = (e.backlog ++ e.queued sha256 input).take messageBudgetPerDrive := by
  cases h : e.opened.accept sha256 input with
  | mk result e' =>
    cases result with
    | error err =>
      rw [queued_of_error h, append_nil, drive_of_error h, accept_error_backlog h]
      exact ⟨rfl, fun out hout => by cases hout⟩
    | ok generated =>
      obtain ⟨accepted, haccepted⟩ := accept_prefix sha256 e.opened input
      obtain ⟨settled, hsettled⟩ := (settle_moves generated (Grounds.any_holds
        (e'.drainBacklog (e.backlog.take messageBudgetPerDrive)).2)).extends.backlog
      rw [h] at haccepted
      have hlen := e'.length_finish_le generated
        (List.length_take_le messageBudgetPerDrive e.backlog)
      have hempty := e'.finish_backlog_eq_nil (e.backlog.take messageBudgetPerDrive) generated
      rw [queued_of_ok haccepted.symm hsettled.symm h, drive_of_ok h,
        ← drive_stream haccepted.symm hsettled.symm]
      rcases hlen.lt_or_eq with hlt | heq
      · -- Less than a budget was sent, so nothing stayed behind.
        rw [hempty hlt, append_nil, List.take_of_length_le hlt.le,
          List.drop_eq_nil_of_le hlt.le]
        exact ⟨rfl, fun out hout => (Except.ok.inj hout).symm⟩
      · rw [List.drop_left' heq, List.take_left' heq]
        exact ⟨rfl, fun out hout => (Except.ok.inj hout).symm⟩

lemma drive_index (sha256 : Hash) (e : Engine) (input : Drive) :
    ∃ e₁, Prepared sha256 e.opened input e₁ ∧ (e.drive sha256 input).2.index = e₁.index ∧
      (e.drive sha256 input).2.eager = e₁.eager := by
  obtain ⟨e₁, hprepared, hmoves⟩ := accept_moves sha256 (Grounds.any_entitles e.opened input)
  refine ⟨e₁, hprepared, ?_⟩
  refine drive_keeps (P := fun e' => e'.index = e₁.index ∧ e'.eager = e₁.eager)
    ⟨hmoves.extends.index, hmoves.extends.eager⟩ ?_
  rintro e' out generated ⟨hindex, heager⟩
  have hsettle := settle_moves generated (Grounds.any_holds (e'.drainBacklog out).2)
  exact ⟨hsettle.extends.index.trans hindex, hsettle.extends.eager.trans heager⟩

lemma opened_index (e : Engine) : e.opened.index = e.index := by
  unfold opened expireNeeds
  split_ifs <;> rfl

lemma opened_eager (e : Engine) : e.opened.eager = e.eager := by
  unfold opened expireNeeds
  split_ifs <;> rfl

end Engine

end Radiata.Reconcile
