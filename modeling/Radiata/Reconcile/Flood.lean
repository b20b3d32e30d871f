import Radiata.Lib.TaperedQueue
import Radiata.Reconcile.Accounting
import Radiata.Reconcile.Run

/-!
# Flood bounds

No sequence of inputs, adversarial messages included, makes an engine's queues grow
without bound.  The ROWS part of the backlog is under its ceiling, the merge set and
the held hints under theirs; for the rest of the backlog no ceiling exists, but one
input queues at most `chatterPerDrive` such messages while a drive takes
`messageBudgetPerDrive`, and a queue of that kind tapers off.
-/

namespace Radiata.Reconcile

open Lib

/-! ## Messages no ceiling bounds -/

lemma length_split_le (start stop : UInt64) : (split start stop).length ≤ 4 := by
  have hstop := stop.toNat_lt
  rw [split]
  split_ifs with hzero
  · have hquarter := congrArg UInt64.toNat hzero
    rw [UInt64.toNat_ofNat', fanout, UInt64.toNat_zero] at hquarter
    rw [List.length_map, List.length_range]
    omega
  · simp

lemma Engine.length_offersFor_le (e : Engine) (t : Triple) : (e.offersFor t).length ≤ 4 := by
  unfold offersFor
  cases e.verdict t with
  | split =>
    dsimp only
    rw [List.length_map]
    exact length_split_le t.start t.stop
  | settled | push | need | collide => exact Nat.zero_le 4

lemma Engine.length_needsFor_le (e : Engine) (t : Triple) : (e.needsFor t).length ≤ 1 := by
  unfold needsFor
  cases e.verdict t with
  | need | collide => exact le_rfl
  | settled | push | split => exact Nat.zero_le 1

lemma length_flatMap_le_mul {α β : Type*} (f : α → List β) {k : ℕ}
    (h : ∀ a, (f a).length ≤ k) (as : List α) : (as.flatMap f).length ≤ k * as.length := by
  rw [List.length_flatMap, mul_comm]
  refine (List.sum_le_card_nsmul _ k ?_).trans (by simp)
  intro n hn
  obtain ⟨a, -, rfl⟩ := List.mem_map.mp hn
  exact h a

lemma chatter_respond_le (e : Engine) (ts : List Triple) :
    ((e.offerMessages ts ++ e.needMessages ts).map fun m => if m.isRows then 0 else 1).sum +
      0 * (rowsBacklogCeiling * (ts.flatMap e.pushesFor).length) ≤
      (4 * ts.length + 31) / 32 + (ts.length + 31) / 32 := by
  have hone (ms : List Message) :
      (ms.map fun m => if m.isRows then 0 else 1).sum ≤ ms.length := by
    induction ms with
    | nil => simp
    | cons m ms ih =>
      rw [List.map_cons, List.sum_cons, List.length_cons]
      split_ifs <;> omega
  have hpos : 0 < maxRangesPerMessage := by decide
  have hoffers := length_chunks_mul_le hpos (ts.flatMap e.offersFor)
  have hneeds := length_chunks_mul_le hpos (ts.flatMap e.needsFor)
  have h4 := length_flatMap_le_mul e.offersFor e.length_offersFor_le ts
  have h1 := length_flatMap_le_mul e.needsFor e.length_needsFor_le ts
  have hlen := hone (e.offerMessages ts ++ e.needMessages ts)
  rw [List.length_append, Engine.offerMessages, Engine.needMessages, List.length_map,
    List.length_map] at hlen
  rw [maxRangesPerMessage] at hoffers hneeds hlen
  rw [Engine.offerMessages, Engine.needMessages, maxRangesPerMessage]
  omega

def chatter : Tariff where
  message m := if m.isRows then 0 else 1
  claims ts := (4 * ts.length + 31) / 32 + (ts.length + 31) / 32
  round := 0
  done := 1
  rows := 0
  done_le _ _ := le_rfl
  rows_le _ _ := le_rfl
  respond_le := chatter_respond_le
  claims_mono h := by gcongr <;> exact h.length_le

lemma chatter_total (messages : List Message) :
    chatter.total messages = messages.countP fun m => !m.isRows := by
  induction messages with
  | nil => rfl
  | cons m ms ih =>
    rw [Tariff.total] at ih ⊢
    rw [List.map_cons, List.sum_cons, ih, List.countP_cons, add_comm]
    congr 1
    cases h : m.isRows <;> simp [chatter, h]

/-! ## The bounded parts -/

def shortHints : Grounds where
  claim _ := True
  asked _ := True
  hint ranges := ranges.length ≤ maxRangesPerMessage
  claim_of_hint _ _ _ := trivial

structure Capped (e : Engine) : Prop where
  rows : rowsCount e.backlog ≤ rowsBacklogCeiling
  needs : e.pendingNeeds.length ≤ needPendingBounds
  hints : e.pendingHints.length ≤ hintPendingMax
  ranges : shortHints.Holds e

namespace Capped

variable {e e' : Engine}

section

variable (h : Capped e)
include h

lemma of_eq (hbacklog : rowsCount e'.backlog ≤ rowsCount e.backlog)
    (hneeds : e'.pendingNeeds = e.pendingNeeds) (hhints : e'.pendingHints = e.pendingHints) :
    Capped e' :=
  ⟨hbacklog.trans h.rows, hneeds ▸ h.needs, hhints ▸ h.hints, by
    rw [Grounds.Holds, hhints]
    exact h.ranges⟩

lemma push {m : Message} (hm : m.isRows = false) : Capped (e.push m) := by
  refine h.of_eq ?_ rfl rfl
  show rowsCount (e.backlog ++ [m]) ≤ rowsCount e.backlog
  have hzero : rowsCount [m] = 0 := rowsCount_eq_zero (by simpa using hm)
  rw [rowsCount_append, hzero, add_zero]

lemma move (hmove : Engine.Move shortHints e e') : Capped e' := by
  cases hmove with
  | respond ts hts =>
    obtain ⟨messages, history, heq, hout⟩ := e.processRanges_eq ts
    have hceiling := hout.ceiling h.rows
    have hmessages := rowsCount_le_length messages
    rw [heq]
    refine ⟨?_, h.needs, h.hints, h.ranges⟩
    show rowsCount (e.backlog ++ (e.offerMessages ts ++ (e.needMessages ts ++ messages))) ≤ _
    rw [rowsCount_append, rowsCount_append, rowsCount_append,
      rowsCount_eq_zero fun m => Engine.isRows_of_mem_offerMessages,
      rowsCount_eq_zero fun m => Engine.isRows_of_mem_needMessages]
    omega
  | answer bound hbound =>
    obtain ⟨messages, needs, history, heq, hout⟩ := e.answerNeed_eq bound.start bound.stop
    have hceiling := hout.ceiling h.rows
    have hmessages := rowsCount_le_length messages
    rw [heq]
    refine ⟨?_, hout.needs_length.trans (max_le h.needs le_rfl), h.hints, h.ranges⟩
    show rowsCount (e.backlog ++ messages) ≤ _
    rw [rowsCount_append]
    omega
  | receipt => exact h.push rfl
  | openRound | closeSlot => exact h.of_eq le_rfl rfl rfl
  | spend => exact ⟨h.rows, h.needs, Nat.zero_le _, fun _ hmem => absurd hmem List.not_mem_nil⟩
  | hold ranges hranges hlt =>
    refine ⟨h.rows, h.needs, ?_, ?_⟩
    · show (e.pendingHints ++ [ranges]).length ≤ _
      rw [List.length_append, List.length_singleton]
      exact hlt
    · intro hint hhint
      rcases List.mem_append.mp hhint with hold | hnew
      · exact h.ranges hint hold
      · rw [List.mem_singleton.mp hnew]
        exact hranges

lemma moves (hmoves : Engine.Moves shortHints e e') : Capped e' := by
  induction hmoves with
  | refl => exact h
  | tail _ hmove ih => exact ih.move hmove

lemma drain (out : List Message) : Capped (e.drainBacklog out).2 :=
  h.of_eq (List.Sublist.countP_le (List.drop_sublist _ _)) rfl rfl

lemma finish (out : List Message) (generated : ℕ) : Capped (e.finish out generated).2 :=
  ((h.drain out).moves (Engine.settle_moves generated (h.drain out).ranges)).drain _

lemma opened : Capped e.opened := by
  have hhints : e.expireNeeds.pendingHints = e.pendingHints := by
    unfold Engine.expireNeeds
    split_ifs <;> rfl
  have hneeds : e.expireNeeds.pendingNeeds.length ≤ needPendingBounds := by
    unfold Engine.expireNeeds
    split_ifs
    · exact Nat.zero_le _
    · exact h.needs
  have hrows : rowsCount (e.backlog.drop messageBudgetPerDrive) ≤ rowsBacklogCeiling :=
    (List.Sublist.countP_le (List.drop_sublist _ _)).trans h.rows
  refine ⟨hrows, hneeds, ?_, ?_⟩
  · show e.expireNeeds.pendingHints.length ≤ _
    rw [hhints]
    exact h.hints
  · show ∀ ranges ∈ e.expireNeeds.pendingHints, _
    rw [hhints]
    exact h.ranges

end

end Capped

lemma shortHints_admits {m : Message} (h : m.WellShaped) : shortHints.Admits m := by
  cases m with
  | root | rows | done => trivial
  | hint lane ranges rows => exact h.1.1
  | offer lane ranges | need lane bounds => exact fun _ _ => trivial

variable {e : Engine} {input : Drive}

lemma Capped.accept (h : Capped e) (sha256 : Hash) (hinput : input.Decoded) :
    Capped (e.accept sha256 input).2 := by
  have hentitles : shortHints.Entitles e input := by
    cases input with
    | message m =>
      exact ⟨h.ranges, shortHints_admits (wellShaped_of_decode hinput.choose_spec)⟩
    | rootExchange => exact fun _ _ => trivial
    | localChange | localChangeEager | drain => exact h.ranges
  have hquiet : rowsCount (e.backlog ++ e.announcement input) ≤ rowsCount e.backlog := by
    rw [rowsCount_append, rowsCount_eq_zero fun m => Engine.isRows_of_mem_announcement, add_zero]
  obtain ⟨e₁, hprepared, hmoves⟩ := Engine.accept_moves sha256 hentitles
  refine Capped.moves ?_ hmoves
  cases hprepared with
  | message hintake =>
    have hreceives := hintake.receives
    exact h.of_eq (by rw [hreceives.backlog]) hreceives.pendingNeeds hreceives.pendingHints
  | localChange | localChangeEager => exact h.of_eq hquiet rfl rfl
  | rootExchange =>
    exact ⟨hquiet.trans h.rows, h.needs, Nat.zero_le _,
      fun _ hmem => absurd hmem List.not_mem_nil⟩
  | drain => exact h

/-! ## The change records -/

structure Tracked (e : Engine) : Prop where
  eager : e.eager.length ≤ maxRowsPerMessage
  dirty : ∀ bounds, e.dirty = some bounds → bounds.length ≤ maxRangesPerMessage
  ordered : ∀ bounds, e.dirty = some bounds → ∀ bound ∈ bounds, bound.1 ≤ bound.2

lemma ordered_coalesce {digest : UInt64} {bounds : List (UInt64 × UInt64)}
    (h : ∀ bound ∈ bounds, bound.1 ≤ bound.2) :
    ∀ bound ∈ coalesce digest bounds, bound.1 ≤ bound.2 := by
  have hstart (touched : List (UInt64 × UInt64)) (start : UInt64) :
      touched.foldl (fun start bound => min start bound.1) start ≤ start := by
    induction touched generalizing start with
    | nil => exact le_rfl
    | cons bound touched ih => exact (ih _).trans (min_le_left _ _)
  have hstop (touched : List (UInt64 × UInt64)) (stop : UInt64) :
      stop ≤ touched.foldl (fun stop bound => max stop bound.2) stop := by
    induction touched generalizing stop with
    | nil => exact le_rfl
    | cons bound touched ih => exact (le_max_left _ _).trans (ih _)
  intro bound hbound
  unfold coalesce at hbound
  dsimp only at hbound
  rw [List.mem_insertionSort] at hbound
  rcases List.mem_append.mp hbound with hrest | hmerged
  · exact h bound (List.mem_filter.mp hrest).1
  · rw [List.mem_singleton.mp hmerged]
    exact (hstart _ digest).trans (hstop _ digest)

namespace Tracked

variable {e e' : Engine}

lemma of_eq (h : Tracked e) (heager : e'.eager = e.eager) (hdirty : e'.dirty = e.dirty) :
    Tracked e' :=
  ⟨heager ▸ h.eager, hdirty ▸ h.dirty, hdirty ▸ h.ordered⟩

lemma of_cleared (heager : e'.eager = []) (hdirty : e'.dirty = some []) : Tracked e' := by
  refine ⟨by rw [heager]; exact Nat.zero_le _, ?_, ?_⟩
  all_goals
    intro bounds heq
    obtain rfl : [] = bounds := Option.some.inj (hdirty.symm.trans heq)
  · exact Nat.zero_le _
  · exact fun bound hbound => absurd hbound List.not_mem_nil

section

variable (h : Tracked e)
include h

variable (digest : UInt64)

lemma markDirty : Tracked (e.markDirty digest) := by
  unfold Engine.markDirty
  cases hdirty : e.dirty with
  | none => exact h
  | some bounds =>
    dsimp only
    split_ifs with hlong
    · exact ⟨h.eager, by simp, by simp⟩
    · refine ⟨h.eager, ?_, ?_⟩
      all_goals
        intro bounds' heq
        obtain rfl : coalesce digest bounds = bounds' := Option.some.inj heq
      · exact not_lt.mp hlong
      · exact ordered_coalesce (h.ordered bounds hdirty)

lemma noteEager (rowBytes : ℕ) : Tracked (e.noteEager digest rowBytes) := by
  unfold Engine.noteEager
  split_ifs with hfull
  · exact h
  · refine ⟨?_, h.dirty, h.ordered⟩
    show (e.eager ++ [digest]).length ≤ _
    rw [List.length_append, List.length_singleton]
    omega

lemma store (row : Row) (eager : Bool) : Tracked (e.store digest row eager) := by
  have hindex : Tracked { e with index := (e.index.insert digest row).2 } := h.of_eq rfl rfl
  unfold Engine.store
  dsimp only
  cases (e.index.insert digest row).1 with
  | some previous => exact hindex
  | none =>
    cases eager with
    | false => exact hindex.markDirty digest
    | true => exact (hindex.markDirty digest).noteEager digest _

lemma intake {sha256 : Hash} {m : Message} (hintake : Engine.Intake sha256 m e e') :
    Tracked e' := by
  induction hintake with
  | refl => exact h
  | tail _ hstep ih =>
    cases hstep with
    | hear => exact ih.of_eq rfl rfl
    | learn => exact ih.of_eq rfl rfl
    | store => exact ih.store _ _ false

lemma of_extends (hextends : Engine.Extends e e') : Tracked e' :=
  h.of_eq hextends.eager hextends.dirty

lemma finish (out : List Message) (generated : ℕ) : Tracked (e.finish out generated).2 := by
  have hsettle := (Engine.settle_moves generated
    (Grounds.any_holds (e.drainBacklog out).2)).extends
  exact h.of_eq hsettle.eager hsettle.dirty

variable (sha256 : Hash)

lemma accept (input : Drive) : Tracked (e.accept sha256 input).2 := by
  obtain ⟨e₁, hprepared, hmoves⟩ := Engine.accept_moves sha256 (Grounds.any_entitles e input)
  refine Tracked.of_extends ?_ hmoves.extends
  cases hprepared with
  | message hintake => exact h.intake hintake
  | localChange | localChangeEager => exact .of_cleared rfl rfl
  | rootExchange => exact ⟨Nat.zero_le _, h.dirty, h.ordered⟩
  | drain => exact h

lemma opened : Tracked e.opened := by
  unfold Engine.opened Engine.expireNeeds
  split_ifs <;> exact h.of_eq rfl rfl

lemma insertRowInner (key content : List UInt8) (eager : Bool) :
    Tracked (e.insertRowInner sha256 key content eager).2 := by
  unfold Engine.insertRowInner
  split_ifs
  · exact h
  · cases itemDigest sha256 key content with
    | error err => exact h
    | ok digest => exact h.store digest ⟨key, content⟩ eager

lemma removeRow (key content : List UInt8) : Tracked (e.removeRow sha256 key content).2 := by
  unfold Engine.removeRow
  cases itemDigest sha256 key content with
  | error err => exact h
  | ok digest =>
    have hindex : Tracked { e with index := (e.index.remove digest).2 } := h.of_eq rfl rfl
    dsimp only
    cases (e.index.remove digest).1 with
    | none => exact hindex
    | some removed => exact hindex.markDirty digest

/-- **Every operation keeps the change records bounded.** -/
theorem step (op : Op) : Tracked (e.step sha256 op) := by
  cases op with
  | insertRow key content => exact h.insertRowInner sha256 key content true
  | insertRowQuiet key content => exact h.insertRowInner sha256 key content false
  | removeRow key content => exact h.removeRow sha256 key content
  | drive input =>
    exact Engine.drive_keeps (h.opened.accept sha256 input) fun _ out generated hkept =>
      hkept.finish out generated

end

end Tracked

/-! ## One operation -/

/-- How many messages outside the ceiling one drive can queue: the response to a full
message, the receipts of two closes, and eight replayed hints. -/
def chatterPerDrive : ℕ := 47

def backlogBound : ℕ := 15616

structure FloodBounds (e : Engine) : Prop where
  capped : Capped e
  tracked : Tracked e
  queue : Tapered (fun m : Message => !m.isRows) messageBudgetPerDrive chatterPerDrive
    backlogBound e.backlog

lemma FloodBounds.new (lane : LaneId) : FloodBounds (.new lane) where
  capped := ⟨Nat.zero_le _, Nat.zero_le _, Nat.zero_le _, fun _ h => absurd h List.not_mem_nil⟩
  tracked := .of_cleared rfl rfl
  queue := .nil

lemma FloodBounds.refills {e' : Engine} (h : FloodBounds e) (hrefills : Engine.Refills e e')
    (htracked : Tracked e') : FloodBounds e' where
  capped := h.capped.of_eq (by rw [hrefills.backlog]) hrefills.pendingNeeds hrefills.pendingHints
  tracked := htracked
  queue := hrefills.backlog ▸ h.queue

lemma Capped.hints_le (h : Capped e) : (e.pendingHints.map chatter.hint).sum ≤ 40 := by
  have hsum := List.sum_le_card_nsmul (e.pendingHints.map chatter.hint) 5 (by
    intro n hn
    obtain ⟨ranges, hranges, rfl⟩ := List.mem_map.mp hn
    have hlen : ranges.length ≤ 32 := h.ranges ranges hranges
    simp only [Tariff.hint, chatter, List.length_map]
    omega)
  have hlen : e.pendingHints.length ≤ 8 := h.hints
  rw [List.length_map, smul_eq_mul] at hsum
  omega

lemma chatter_push_le (e : Engine) (m : Message) :
    chatter.potential (e.push m) ≤ chatter.potential e + 1 := by
  have hm : chatter.message m ≤ 1 := by
    show (if m.isRows then 0 else 1) ≤ 1
    split_ifs <;> decide
  rw [Tariff.potential_push]
  omega

lemma chatter_driveLocalChange (e : Engine) (eager : Bool) :
    chatter.potential (e.driveLocalChange eager).2 ≤ chatter.potential e + 1 := by
  unfold Engine.driveLocalChange
  dsimp only
  by_cases hnone : e.changedRanges.isEmpty = true
  · rw [if_pos hnone]
    exact Nat.le_succ _
  · rw [if_neg hnone]
    exact chatter_push_le _ _

lemma chatter_driveRootExchange (e : Engine) :
    chatter.potential e.driveRootExchange.2 ≤ chatter.potential e + 3 := by
  have hannounce : chatter.potential e.announceRoot ≤ chatter.potential e + 1 := by
    refine (chatter_push_le _ _).trans (Nat.add_le_add_right ?_ 1)
    exact Nat.add_le_add_left (Nat.zero_le _) _
  have hclose := chatter.potential_closeRoundOnAgreement e.announceRoot
  have hdone : chatter.done = 1 := rfl
  show chatter.potential e.announceRoot.weighPeerRoot ≤ _
  unfold Engine.weighPeerRoot
  cases e.announceRoot.peerRoot with
  | none => exact hannounce.trans (by omega)
  | some peer =>
    have hopen := chatter.potential_initiate e.announceRoot [⟨0, maxWord, peer⟩]
    have hclaims : chatter.round + chatter.claims [⟨0, maxWord, peer⟩] = 2 := by
      simp [chatter]
    dsimp only
    split_ifs <;> omega

lemma chatter_accept (sha256 : Hash) (e : Engine) (h : input.Decoded) :
    chatter.potential (e.accept sha256 input).2 ≤ chatter.potential e + 6 := by
  cases input with
  | message m =>
    have hshape : m.WellShaped := wellShaped_of_decode h.choose_spec
    have hprice : chatter.price m ≤ 6 := by
      cases m with
      | root lane count xor => exact (by decide : 1 + 0 + (35 / 32 + 32 / 32) ≤ 6)
      | hint lane ranges rows =>
        have hlen : ranges.length ≤ 32 := hshape.1.1
        simp only [Tariff.price, Tariff.hint, chatter, List.length_map]
        omega
      | offer lane ranges =>
        have hlen : ranges.length ≤ 32 := hshape.1
        simp only [Tariff.price, chatter, List.length_map]
        omega
      | need lane bounds =>
        simp only [Tariff.price, chatter, zero_mul]
        exact Nat.zero_le 6
      | rows | done => exact Nat.zero_le 6
    exact (chatter.potential_applyMessage sha256 e m).trans (Nat.add_le_add_left hprice _)
  | localChange => exact (chatter_driveLocalChange e false).trans (by omega)
  | localChangeEager => exact (chatter_driveLocalChange e true).trans (by omega)
  | rootExchange => exact (chatter_driveRootExchange e).trans (by omega)
  | drain => exact Nat.le_add_right _ _

lemma countP_queued_le (sha256 : Hash) (h : Capped e) (hinput : input.Decoded) :
    (e.queued sha256 input).countP (fun m => !m.isRows) ≤ chatterPerDrive := by
  obtain ⟨hbacklog, hok⟩ := e.drive_backlog sha256 input
  cases hresult : (e.drive sha256 input).1 with
  | error err =>
    have hnone : e.queued sha256 input = [] := by
      rw [Engine.queued]
      split <;> simp_all
    rw [hnone]
    exact Nat.zero_le _
  | ok out =>
    have haccounts := chatter.drive_accounts sha256 e input 6 (chatter_accept sha256 _ hinput)
    have hstream := congrArg chatter.total
      (List.take_append_drop messageBudgetPerDrive (e.backlog ++ e.queued sha256 input))
    have hhints := h.hints_le
    have hslot := chatter.slot_le e
    have hround : chatter.round = 0 := rfl
    have hdone : chatter.done = 1 := rfl
    rw [hresult, sent, hok out hresult, Tariff.potential, Tariff.potential, hbacklog] at haccounts
    rw [Tariff.total_append, Tariff.total_append] at hstream
    rw [← chatter_total, chatterPerDrive]
    omega

lemma FloodBounds.drive (h : FloodBounds e) (sha256 : Hash) (hinput : input.Decoded) :
    FloodBounds (e.drive sha256 input).2 := by
  obtain ⟨hbacklog, -⟩ := e.drive_backlog sha256 input
  have hcapped : Capped (e.drive sha256 input).2 :=
    Engine.drive_keeps (h.capped.opened.accept sha256 hinput) fun _ out generated hkept =>
      hkept.finish out generated
  refine ⟨hcapped, h.tracked.step sha256 (.drive input), ?_⟩
  have hceiling := hcapped.rows
  rw [hbacklog] at hceiling ⊢
  -- The drain outruns the chatter by enough for the bound to absorb the ceiling.
  have hbalance : messageBudgetPerDrive * rowsBacklogCeiling +
      chatterPerDrive * (backlogBound + messageBudgetPerDrive) ≤
        messageBudgetPerDrive * backlogBound := by
    decide
  refine h.queue.step (by decide) hbalance (countP_queued_le sha256 h.capped hinput) ?_
  simpa [rowsCount] using hceiling

/-- **One operation keeps every bound.** -/
theorem FloodBounds.step (h : FloodBounds e) (sha256 : Hash) {op : Op} (hop : op.Decoded) :
    FloodBounds (e.step sha256 op) := by
  cases op with
  | insertRow key content =>
    exact h.refills (e.insertRowInner_refills sha256 key content true)
      (h.tracked.insertRowInner sha256 key content true)
  | insertRowQuiet key content =>
    exact h.refills (e.insertRowInner_refills sha256 key content false)
      (h.tracked.insertRowInner sha256 key content false)
  | removeRow key content =>
    exact h.refills (e.removeRow_refills sha256 key content)
      (h.tracked.removeRow sha256 key content)
  | drive input => exact h.drive sha256 hop

/-! ## Runs -/

/-- **Flood bounds.**  After any operations whose messages the decoder accepts, every
queue of the engine is under its bound, and whatever drives it next returns at most one
budget of messages. -/
theorem flood_bounds (sha256 : Hash) (lane : LaneId) (ops : List Op)
    (hops : ∀ op ∈ ops, op.Decoded) :
    (∀ input out, ((Engine.run sha256 lane ops).drive sha256 input).1 = .ok out →
      out.length ≤ messageBudgetPerDrive) ∧
    (Engine.run sha256 lane ops).queuedRowsMessages ≤ rowsBacklogCeiling ∧
    (Engine.run sha256 lane ops).pendingNeeds.length ≤ needPendingBounds ∧
    (Engine.run sha256 lane ops).pendingHints.length ≤ hintPendingMax ∧
    (∀ ranges ∈ (Engine.run sha256 lane ops).pendingHints,
      ranges.length ≤ maxRangesPerMessage) ∧
    (Engine.run sha256 lane ops).eager.length ≤ maxRowsPerMessage ∧
    (∀ bounds, (Engine.run sha256 lane ops).dirty = some bounds →
      bounds.length ≤ maxRangesPerMessage) ∧
    (Engine.run sha256 lane ops).backlog.length ≤ backlogBound := by
  have h : FloodBounds (Engine.run sha256 lane ops) :=
    Engine.run_invariant (FloodBounds.new lane) (fun _ _ hbounds hop => hbounds.step sha256 hop)
      hops
  refine ⟨?_, ?_, h.capped.needs, h.capped.hints, h.capped.ranges, h.tracked.eager,
    h.tracked.dirty, h.queue.length_le⟩
  · intro input out hout
    obtain ⟨-, hok⟩ := (Engine.run sha256 lane ops).drive_backlog sha256 input
    rw [hok out hout]
    exact List.length_take_le _ _
  · rw [Engine.queuedRowsMessages_eq]
    exact h.capped.rows

/-- A peer that claims an empty lane after a local insert. -/
theorem flood_bounds_empty_root :
    (Engine.run (fun _ => Vector.replicate 32 0) .descriptors
      [.insertRow [1] [2], .drive (.message (.root .descriptors 0 0))]).backlog.length ≤
        backlogBound := by
  have hencode : encode (.root .descriptors 0 0) = .ok [0x84, 1, 1, 0, 0] :=
    encode_eq_ok_iff.mpr ⟨trivial, by decide, by decide⟩
  refine (flood_bounds _ .descriptors _ ?_).2.2.2.2.2.2.2
  intro op hop
  rcases List.mem_pair.mp hop with rfl | rfl
  · trivial
  · exact ⟨_, decode_of_encode hencode⟩

end Radiata.Reconcile
