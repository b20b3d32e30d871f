import Radiata.Reconcile.Drive

/-!
# What an engine says

Every message an engine queues is an announcement of its own (`announcement`) or is
said on some ground: an OFFER of claims it computed over the children of a divergent
claim, a NEED of a claim it cannot match, the rows of a range some claim or question
entitles the peer to, or a receipt.  `Emitted` lists these with their grounds, and
`drive_emits` says that a drive queues nothing else, the grounds being what the input,
the held hints and the last root claim.
-/

namespace Radiata.Reconcile

open Lib
open List (not_mem_nil)

namespace Engine

inductive Emitted (g : Grounds) (e : Engine) : Message → Prop where
  | offer {ranges : List RangeFingerprint} (hlength : ranges.length ≤ maxRangesPerMessage)
      (h : ∀ range ∈ ranges, ∃ t, g.claim t ∧ range ∈ e.offersFor t) :
      Emitted g e (.offer e.lane ranges)
  | need {bounds : List DigestRange} (hlength : bounds.length ≤ maxRangesPerMessage)
      (h : ∀ bound ∈ bounds, ∃ t, g.claim t ∧ bound ∈ e.needsFor t) :
      Emitted g e (.need e.lane bounds)
  | push {t : Triple} {bound : UInt64 × UInt64} {carried : List Row} (ht : g.claim t)
      (hbound : bound ∈ e.pushesFor t) (hpacked : Packed carried)
      (h : carried ⊆ e.rowsIn bound) : Emitted g e (.rows e.lane carried)
  | answer {bound : DigestRange} {carried : List Row} (hbound : g.asked bound)
      (hpacked : Packed carried) (h : carried ⊆ e.rowsIn (bound.start, bound.stop)) :
      Emitted g e (.rows e.lane carried)
  | receipt : Emitted g e e.doneMessage

/-! ## The grounds are judged by the rows alone -/

section Congr

variable {e e' : Engine} (h : e'.index = e.index)

include h

lemma rangeFingerprint_congr : e'.rangeFingerprint = e.rangeFingerprint := by
  funext start stop
  rw [rangeFingerprint, rangeFingerprint, h]

lemma verdict_congr : e'.verdict = e.verdict := by
  funext t
  rw [verdict, verdict, rangeFingerprint_congr h]

lemma claim_congr : e'.claim = e.claim := by
  funext bound
  rw [claim, claim, rangeFingerprint_congr h]

lemma offersFor_congr : e'.offersFor = e.offersFor := by
  funext t
  rw [offersFor, offersFor, verdict_congr h, claim_congr h]

lemma needsFor_congr : e'.needsFor = e.needsFor := by
  funext t
  rw [needsFor, needsFor, verdict_congr h]

lemma pushesFor_congr : e'.pushesFor = e.pushesFor := by
  funext t
  rw [pushesFor, pushesFor, verdict_congr h]

lemma rowsIn_congr : e'.rowsIn = e.rowsIn := by
  funext bound
  rw [rowsIn, rowsIn, h]

end Congr

variable {g : Grounds} {e e' : Engine}

variable {m : Message}

lemma Emitted.congr (hlane : e'.lane = e.lane) (hindex : e'.index = e.index) (h : Emitted g e m) :
    Emitted g e' m := by
  cases h with
  | offer hlength hranges =>
    rw [← hlane]
    refine .offer hlength ?_
    rwa [offersFor_congr hindex]
  | need hlength hbounds =>
    rw [← hlane]
    refine .need hlength ?_
    rwa [needsFor_congr hindex]
  | push ht hbound hpacked hrows =>
    rw [← hlane]
    refine .push ht ?_ hpacked (rowsIn_congr hindex ▸ hrows)
    rwa [pushesFor_congr hindex]
  | answer hbound hpacked hrows =>
    rw [← hlane]
    exact .answer hbound hpacked (rowsIn_congr hindex ▸ hrows)
  | receipt =>
    have hdone : e'.doneMessage = e.doneMessage := by
      rw [doneMessage, doneMessage, hlane, hindex]
    rw [← hdone]
    exact .receipt

/-! ## Runs of moves -/

lemma processRanges_emits {ts : List Triple} (h : ∀ t ∈ ts, g.claim t) :
    ∃ pushed, (e.processRanges ts).backlog = e.backlog ++ pushed ∧
      ∀ m ∈ pushed, Emitted g e m := by
  obtain ⟨messages, history, heq, hout⟩ := e.processRanges_eq ts
  have hsize : 0 < maxRangesPerMessage := by decide
  refine ⟨_, by rw [heq], ?_⟩
  intro m hm
  rcases List.mem_append.mp hm with hoffer | hm
  · obtain ⟨chunk, hchunk, rfl⟩ := List.mem_map.mp hoffer
    obtain ⟨-, hlength, hsub⟩ := mem_chunks hsize hchunk
    refine .offer hlength fun range hrange => ?_
    obtain ⟨t, ht, hmem⟩ := List.mem_flatMap.mp (hsub hrange)
    exact ⟨t, h t ht, hmem⟩
  rcases List.mem_append.mp hm with hneed | hrows
  · obtain ⟨chunk, hchunk, rfl⟩ := List.mem_map.mp hneed
    obtain ⟨-, hlength, hsub⟩ := mem_chunks hsize hchunk
    refine .need hlength fun bound hbound => ?_
    obtain ⟨t, ht, hmem⟩ := List.mem_flatMap.mp (hsub hbound)
    exact ⟨t, h t ht, hmem⟩
  · obtain ⟨bound, hbound, carried, rfl, hpacked, -, hsub⟩ := hout.shape m hrows
    obtain ⟨t, ht, hmem⟩ := List.mem_flatMap.mp hbound
    exact .push (h t ht) hmem hpacked hsub

lemma answerNeed_emits {bound : DigestRange} (h : g.asked bound) :
    ∃ pushed, (e.answerNeed bound.start bound.stop).backlog = e.backlog ++ pushed ∧
      ∀ m ∈ pushed, Emitted g e m := by
  obtain ⟨messages, needs, history, heq, hout⟩ := e.answerNeed_eq bound.start bound.stop
  refine ⟨messages, by rw [heq], fun m hm => ?_⟩
  obtain ⟨carried, rfl, hpacked, hsub⟩ := hout.shape m hm
  exact .answer h hpacked hsub

lemma Move.emits (h : Move g e e') :
    ∃ pushed, e'.backlog = e.backlog ++ pushed ∧ ∀ m ∈ pushed, Emitted g e m := by
  cases h with
  | respond ts hts => exact processRanges_emits hts
  | answer bound hbound => exact answerNeed_emits hbound
  | receipt =>
    refine ⟨[e.doneMessage], rfl, fun m hm => ?_⟩
    rw [List.mem_singleton.mp hm]
    exact .receipt
  | openRound | closeSlot | spend | hold =>
    exact ⟨[], (List.append_nil _).symm, fun m hm => absurd hm not_mem_nil⟩

/-- **The negotiation says only what its grounds entitle it to.** -/
theorem Moves.emits (h : Moves g e e') :
    ∃ pushed, e'.backlog = e.backlog ++ pushed ∧ ∀ m ∈ pushed, Emitted g e m := by
  induction h with
  | refl => exact ⟨[], (List.append_nil _).symm, fun m hm => absurd hm not_mem_nil⟩
  | @tail e₁ e₂ hmoves hmove ih =>
    obtain ⟨earlier, hearlier, hold⟩ := ih
    obtain ⟨later, hlater, hnew⟩ := hmove.emits
    refine ⟨earlier ++ later, by rw [hlater, hearlier, List.append_assoc], fun m hm => ?_⟩
    rcases List.mem_append.mp hm with hm | hm
    · exact hold m hm
    · have hextends : Extends e e₁ := Moves.extends hmoves
      exact (hnew m hm).congr hextends.lane.symm hextends.index.symm

/-! ## Drives -/

section

variable (e : Engine)

def heldClaim (t : Triple) : Prop :=
  ∃ ranges ∈ e.pendingHints, ∃ range ∈ ranges, t = range.triple

/-- The claims a drive may respond to: those of its message and of the held hints, and
the last-seen root in a root exchange. -/
def claimed : Drive → Triple → Prop
  | .message (.root _ count xor), t => t = ⟨0, maxWord, ⟨count, xor⟩⟩ ∨ e.heldClaim t
  | .message (.hint _ ranges _), t => (∃ range ∈ ranges, t = range.triple) ∨ e.heldClaim t
  | .message (.offer _ ranges), t => (∃ range ∈ ranges, t = range.triple) ∨ e.heldClaim t
  | .rootExchange, t => ∃ peer, e.peerRoot = some peer ∧ t = ⟨0, maxWord, peer⟩
  | _, t => e.heldClaim t

def asked : Drive → DigestRange → Prop
  | .message (.need _ bounds), bound => bound ∈ bounds
  | _, _ => False

def hinted : Drive → List RangeFingerprint → Prop
  | .message (.hint _ carried _), ranges => ranges = carried ∨ ranges ∈ e.pendingHints
  | .rootExchange, _ => False
  | _, ranges => ranges ∈ e.pendingHints

def grounds (input : Drive) : Grounds where
  claim := e.claimed input
  asked := asked input
  hint := e.hinted input
  claim_of_hint {ranges} hranges range hrange := by
    have hheld (h : ranges ∈ e.pendingHints) : e.heldClaim range.triple :=
      ⟨ranges, h, range, hrange, rfl⟩
    cases input with
    | message m =>
      cases m with
      | hint lane carried rows =>
        rcases hranges with rfl | hmem
        · exact Or.inl ⟨range, hrange, rfl⟩
        · exact Or.inr (hheld hmem)
      | root | offer => exact Or.inr (hheld hranges)
      | need | rows | done => exact hheld hranges
    | rootExchange => exact hranges.elim
    | localChange | localChangeEager | drain => exact hheld hranges

lemma grounds_entitles (input : Drive) : (e.grounds input).Entitles e input := by
  cases input with
  | message m =>
    cases m with
    | root lane count xor => exact ⟨fun _ h => h, Or.inl rfl⟩
    | hint lane ranges rows => exact ⟨fun _ h => Or.inr h, Or.inl rfl⟩
    | offer lane ranges =>
      exact ⟨fun _ h => h, fun range hrange => Or.inl ⟨range, hrange, rfl⟩⟩
    | need lane bounds => exact ⟨fun _ h => h, fun _ h => h⟩
    | rows lane carried => exact ⟨fun _ h => h, trivial⟩
    | done lane token => exact ⟨fun _ h => h, trivial⟩
  | rootExchange => exact fun peer hpeer => ⟨peer, hpeer, rfl⟩
  | localChange | localChangeEager | drain => exact fun _ h => h

end

variable {input : Drive}

lemma Prepared.holds {sha256 : Hash} (h : Prepared sha256 e input e')
    (hentitles : g.Entitles e input) : g.Holds e' := by
  cases h with
  | message hintake =>
    rw [Grounds.Holds, hintake.receives.pendingHints]
    exact hentitles.1
  | localChange | localChangeEager | drain => exact hentitles
  | rootExchange => exact fun _ hmem => absurd hmem not_mem_nil

lemma opened_announcement (e : Engine) : e.opened.announcement = e.announcement := by
  unfold opened expireNeeds
  split_ifs <;> rfl

lemma finish_index (e : Engine) (out : List Message) (generated : ℕ) :
    (e.finish out generated).2.index = e.index :=
  (settle_moves generated (Grounds.any_holds (e.drainBacklog out).2)).extends.index

lemma finish_lane (e : Engine) (out : List Message) (generated : ℕ) :
    (e.finish out generated).2.lane = e.lane :=
  (settle_moves generated (Grounds.any_holds (e.drainBacklog out).2)).extends.lane

lemma opened_entitles (h : g.Entitles e input) : g.Entitles e.opened input := by
  unfold opened expireNeeds
  split_ifs <;> exact h

variable (sha256 : Hash)

/-- **A drive says what it announces and what its grounds entitle it to**, judged by
the rows it ends with. -/
theorem drive_emits_of (hentitles : g.Entitles e input) (hm : m ∈ e.queued sha256 input) :
    m ∈ e.announcement input ∨ Emitted g (e.drive sha256 input).2 m := by
  cases h : e.opened.accept sha256 input with
  | mk result e' =>
    cases result with
    | error err =>
      rw [queued_of_error h] at hm
      exact absurd hm not_mem_nil
    | ok generated =>
      obtain ⟨e₁, hprepared, hmoves⟩ := accept_moves sha256 (opened_entitles hentitles)
      rw [h] at hmoves
      have hheld := hmoves.holds (hprepared.holds (opened_entitles hentitles))
      have hsettle := settle_moves generated
        (e := (e'.drainBacklog (e.backlog.take messageBudgetPerDrive)).2) hheld
      obtain ⟨answered, hanswered, hanswers⟩ := hmoves.emits
      obtain ⟨settled, hsettled, hsettles⟩ := hsettle.emits
      have haccepted : e'.backlog =
          e.opened.backlog ++ (e.announcement input ++ answered) := by
        rw [hanswered, hprepared.backlog, opened_announcement, List.append_assoc]
      have hlane := e'.finish_lane (e.backlog.take messageBudgetPerDrive) generated
      have hindex := e'.finish_index (e.backlog.take messageBudgetPerDrive) generated
      rw [queued_of_ok haccepted hsettled h] at hm
      rw [drive_of_ok h]
      rcases List.mem_append.mp hm with hm | hm
      · rcases List.mem_append.mp hm with hm | hm
        · exact Or.inl hm
        · exact Or.inr ((hanswers m hm).congr (hlane.trans hmoves.extends.lane)
            (hindex.trans hmoves.extends.index))
      · exact Or.inr (Emitted.congr (e := (e'.drainBacklog _).2) hlane hindex (hsettles m hm))

lemma drive_emits (e : Engine) (input : Drive) (hm : m ∈ e.queued sha256 input) :
    m ∈ e.announcement input ∨ Emitted (e.grounds input) (e.drive sha256 input).2 m :=
  drive_emits_of sha256 (e.grounds_entitles input) hm

lemma drive_holds (hentitles : g.Entitles e input) : g.Holds (e.drive sha256 input).2 := by
  obtain ⟨e₁, hprepared, hmoves⟩ := accept_moves sha256 (opened_entitles hentitles)
  refine drive_keeps (hmoves.holds (hprepared.holds (opened_entitles hentitles))) ?_
  intro e' out generated hheld
  have hsettle := settle_moves (e := (e'.drainBacklog out).2) generated hheld
  exact hsettle.holds hheld

/-! ## Rows in messages -/

lemma eagerRows_spec (index : LiveIndex Row) (bytes : ℕ) (digests : List UInt64)
    (h : bytes ≤ eagerDeltaBytes) :
    (eagerRows index bytes digests).length ≤ digests.length ∧
    bytes + ((eagerRows index bytes digests).map Row.cost).sum ≤ eagerDeltaBytes ∧
    ∀ row ∈ eagerRows index bytes digests,
      ∃ digest ∈ digests, (digest, row) ∈ index.iter := by
  induction digests generalizing bytes with
  | nil => exact ⟨le_rfl, h, fun row hrow => absurd hrow not_mem_nil⟩
  | cons digest digests ih =>
    rw [eagerRows]
    cases hget : index.get digest with
    | none =>
      obtain ⟨hlength, hbytes, hrows⟩ := ih bytes h
      refine ⟨hlength.trans (Nat.le_succ _), hbytes, fun row hrow => ?_⟩
      obtain ⟨d, hd, hmem⟩ := hrows row hrow
      exact ⟨d, List.mem_cons_of_mem _ hd, hmem⟩
    | some row =>
      dsimp only
      split_ifs with hover
      · exact ⟨Nat.zero_le _, h, fun row hrow => absurd hrow not_mem_nil⟩
      · obtain ⟨hlength, hbytes, hrows⟩ := ih (bytes + row.cost) (not_lt.mp hover)
        refine ⟨Nat.succ_le_succ hlength, ?_, fun other hother => ?_⟩
        · rw [List.map_cons, List.sum_cons]
          omega
        · rcases List.mem_cons.mp hother with rfl | hother
          · exact ⟨digest, List.mem_cons_self, LiveIndex.get_eq_some_iff.mp hget⟩
          · obtain ⟨d, hd, hmem⟩ := hrows other hother
            exact ⟨d, List.mem_cons_of_mem _ hd, hmem⟩

lemma carried_held {sha256 : Hash} (hm : m ∈ e.queued sha256 input) {row : Row}
    (hrow : row ∈ m.carried) : ∃ digest, (digest, row) ∈ (e.drive sha256 input).2.index.iter := by
  have hheld {bound : UInt64 × UInt64} (h : row ∈ (e.drive sha256 input).2.rowsIn bound) :
      ∃ digest, (digest, row) ∈ (e.drive sha256 input).2.index.iter := by
    obtain ⟨entry, hentry, rfl⟩ := List.mem_map.mp h
    exact ⟨entry.1, (LiveIndex.mem_entriesIn.mp hentry).1⟩
  rcases drive_emits_of sha256 (Grounds.any_entitles e input) hm with hann | hemitted
  · rcases mem_announcement hann with ⟨-, rfl⟩ | ⟨-, rfl⟩ | ⟨rfl, rfl⟩
    · exact absurd hrow not_mem_nil
    · exact absurd hrow not_mem_nil
    · obtain ⟨e₁, hprepared, hindex, -⟩ := e.drive_index sha256 .localChangeEager
      obtain ⟨digest, -, hmem⟩ := (eagerRows_spec e.index 0 e.eager (Nat.zero_le _)).2.2 row hrow
      refine ⟨digest, ?_⟩
      cases hprepared
      rw [hindex]
      exact e.opened_index ▸ hmem
  · cases hemitted with
    | offer | need | receipt => exact absurd hrow not_mem_nil
    | push _ _ _ hsub | answer _ _ hsub => exact hheld (hsub hrow)

end Engine

end Radiata.Reconcile
