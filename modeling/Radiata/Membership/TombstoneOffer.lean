import Radiata.Lib.Checked
import Radiata.Lib.Register
import Radiata.Membership.Tombstone

/-!
# What a tombstone row offers

A row offers its bytes to at most one slot of the store, and the slot's rule decides
whether they stay: a leave slot takes one legitimate value, a cleanup or revocation slot
merges, the checkpoint slot keeps the highest watermark.

The merges follow ranks.  A cleanup record ranks by stamp and then by its bytes, a revocation
record by its bytes, a checkpoint by its watermark alone.
-/

namespace Radiata.Membership

open Lib Identity Reconcile

/-! ## What a row decodes to -/

def TombstoneRow.Reads (v : Verifier) (content : List UInt8) : TombstoneRow → Prop
  | .leave r => leaveFormat.decode content = .ok r ∧ v.leave r = true
  | .cleanup r => cleanupFormat.decode content = .ok r
  | .revocation r => revocationFormat.decode content = .ok r
  | .checkpoint r => checkpointFormat.decode content = .ok r

lemma decodeSubject_decode {α : Type} {format : RecordFormat α} {subjectOf : α → List UInt8}
    {subject content : List UInt8} {a : α}
    (h : decodeSubject format subjectOf subject content = some a) :
    format.decode content = .ok a := by
  unfold decodeSubject at h
  split at h
  · rename_i record hdecode
    split_ifs at h
    rw [hdecode, Option.some.inj h]
  · cases h

variable {decoded : TombstoneRow}

lemma reads_of_decode {v : Verifier} {row : Row} (h : decodeTombstoneRow v row = some decoded) :
    decoded.Reads v row.content := by
  unfold decodeTombstoneRow at h
  split at h
  · cases h
  split at h
  · cases h
  · split at h
    · rename_i record hrecord
      split_ifs at h with hverifies
      cases h
      exact ⟨decodeSubject_decode hrecord, hverifies⟩
    · cases h
  all_goals
    obtain ⟨record, hrecord, rfl⟩ := Option.map_eq_some_iff.mp h
    exact decodeSubject_decode hrecord

def TombstoneRow.stamp : TombstoneRow → Option Millis
  | .leave r => some r.timestampMillis
  | .cleanup r => some r.timestampMillis
  | .revocation _ => none
  | .checkpoint _ => none

/-! ## Ranks -/

variable (bytes : List UInt8)

def cleanupStamp : ℤ :=
  match cleanupFormat.decode bytes with
  | .ok r => r.timestampMillis.1
  | .error _ => 0

def cleanupRank : ℤ ×ₗ List UInt8 := toLex (cleanupStamp bytes, bytes)

def checkpointRank : ℤ :=
  match checkpointFormat.decode bytes with
  | .ok c => -c.watermarkMillis.1
  | .error _ => 0

section Keep

variable {slot : Option (List UInt8)} {encoded : List UInt8}

lemma persistTerminalRecord_keep (label : String)
    (h : ∀ existing, slot = some existing → existing = encoded) :
    persistTerminalRecord slot encoded label = .ok encoded ∧
      keep (fun _ => ()) slot encoded = some encoded := by
  cases slot with
  | none => exact ⟨rfl, rfl⟩
  | some existing =>
    obtain rfl := h existing rfl
    refine ⟨?_, rfl⟩
    rw [persistTerminalRecord, require_bind_eq_ok]
    exact ⟨rfl, rfl⟩

structure Follows {κ : Type} [LinearOrder κ] (rank : List UInt8 → κ)
    (decides : List UInt8 → List UInt8 → Result TerminalWinner) (stored fresh : List UInt8) :
    Prop where
  fresh_of_lt : rank fresh < rank stored → decides stored fresh = .ok .fresh
  stored_of_le : rank stored ≤ rank fresh → decides stored fresh = .ok .stored

lemma persistConvergentTerminalRecord_keep {κ : Type} [LinearOrder κ] {rank : List UInt8 → κ}
    {decides : List UInt8 → List UInt8 → Result TerminalWinner}
    (h : ∀ existing, slot = some existing → Follows rank decides existing encoded) :
    ∃ winner, persistConvergentTerminalRecord slot encoded decides = .ok winner ∧
      keep rank slot encoded = some winner := by
  cases slot with
  | none => exact ⟨encoded, rfl, rfl⟩
  | some existing =>
    rw [persistConvergentTerminalRecord, keep]
    by_cases hsame : existing = encoded
    · subst hsame
      exact ⟨existing, if_pos rfl, if_neg (lt_irrefl _)⟩
    · rw [if_neg hsame]
      split_ifs with hlt
      · exact ⟨encoded, by rw [(h existing rfl).fresh_of_lt hlt]; rfl, rfl⟩
      · exact ⟨existing, by rw [(h existing rfl).stored_of_le (not_lt.mp hlt)]; rfl, rfl⟩

lemma cleanupMerge_follows {stored fresh : List UInt8} {r r' : CleanupRecordV1}
    (hr : cleanupFormat.decode stored = .ok r) (hr' : cleanupFormat.decode fresh = .ok r')
    (hkey : r.subjectKey = r'.subjectKey) : Follows cleanupRank cleanupMerge stored fresh := by
  have hlt : cleanupRank fresh < cleanupRank stored ↔
      r'.timestampMillis.1 < r.timestampMillis.1 ∨
        r'.timestampMillis.1 = r.timestampMillis.1 ∧ fresh < stored := by
    rw [cleanupRank, cleanupRank, Prod.Lex.toLex_lt_toLex, cleanupStamp, cleanupStamp, hr, hr']
  have hmerge (winner : TerminalWinner) : cleanupMerge stored fresh = .ok winner ↔
      (if r'.timestampMillis.1 < r.timestampMillis.1 then pure .fresh
        else if r.timestampMillis.1 < r'.timestampMillis.1 then pure .stored
        else if fresh < stored then pure .fresh else pure .stored : Result TerminalWinner) =
          .ok winner := by
    rw [cleanupMerge, hr, ok_bind, hr', ok_bind, require_bind_eq_ok]
    exact and_iff_right hkey
  constructor
  · intro h
    rw [hmerge]
    rcases hlt.mp h with hearlier | ⟨htie, hbytes⟩
    · rw [if_pos hearlier]
      rfl
    · rw [htie, if_neg (lt_irrefl _), if_neg (lt_irrefl _), if_pos hbytes]
      rfl
  · intro h
    rw [hmerge]
    have hnot := mt hlt.mpr (not_lt.mpr h)
    push Not at hnot
    rw [if_neg (not_lt.mpr hnot.1)]
    split_ifs with hlater hbytes
    · rfl
    · exact absurd hbytes (not_lt.mpr (hnot.2 (le_antisymm (not_lt.mp hlater) hnot.1)))
    · rfl

lemma revocationMerge_follows {stored fresh : List UInt8} {r r' : RevocationRecordV1}
    (hr : revocationFormat.decode stored = .ok r) (hr' : revocationFormat.decode fresh = .ok r')
    (hkey : r.subjectKey = r'.subjectKey) : Follows id revocationMerge stored fresh := by
  have hmerge (winner : TerminalWinner) : revocationMerge stored fresh = .ok winner ↔
      (if fresh < stored then pure .fresh else pure .stored : Result TerminalWinner) =
        .ok winner := by
    rw [revocationMerge, hr, ok_bind, hr', ok_bind, require_bind_eq_ok]
    exact and_iff_right hkey
  exact ⟨fun h => (hmerge _).mpr (if_pos h), fun h => (hmerge _).mpr (if_neg (not_lt.mpr h))⟩

/-- The admission of an issuer-signed row: a row whose two nodes are bound, whose pinned
key is the subject's and whose signature verifies goes on, and every other row is passed
over. -/
theorem passingOver_admission {store : IdentityStore} {issuer subject : NodeId}
    {subjectKey : PublicKey} {verifies : PublicKey → Bool} {c₁ c₂ c₃ : String}
    (next : Result IdentityStore) :
    passingOver [.conflict, .notTrusted, .authenticationFailed] store
        (if (store.bindings issuer).isNone ∨ (store.bindings subject).isNone then pure store
        else verifyRetainedBindings store issuer subject subjectKey verifies c₁ c₂ c₃ >>=
          fun _ => next) =
      if store.bindings subject = some subjectKey ∧ (store.bindings issuer).any verifies = true then
        passingOver [.conflict, .notTrusted, .authenticationFailed] store next
      else .ok store := by
  cases hissuer : store.bindings issuer with
  | none => simp [passingOver, pure, Except.pure]
  | some issuerKey =>
    cases hsubject : store.bindings subject with
    | none => simp [passingOver, pure, Except.pure]
    | some bound =>
      rw [if_neg (by simp), verifyRetainedBindings, hissuer, hsubject]
      by_cases hverifies : verifies issuerKey = true
      · by_cases hbound : bound = subjectKey
        · simp [require, hverifies, hbound]
        · simp [require, hverifies, hbound, passingOver, Error.notTrusted, bind, Except.bind]
      · simp [require, hverifies, passingOver, Error.authenticationFailed, bind, Except.bind]

end Keep

/-! ## The store as slots -/

inductive TombstoneSlot where
  | leave (node : NodeId)
  | cleanup (subject : NodeId)
  | revocation (subject : NodeId)
  | checkpoint
deriving DecidableEq

variable (store : IdentityStore)

def slotOf : TombstoneSlot → Option (List UInt8)
  | .leave node => store.leave node
  | .cleanup subject => store.cleanup subject
  | .revocation subject => store.revocation subject
  | .checkpoint => store.checkpoint

def putSlot (slot : TombstoneSlot) (bytes : List UInt8) : IdentityStore :=
  match slot with
  | .leave node => { store with leave := Function.update store.leave node (some bytes) }
  | .cleanup subject => { store with cleanup := Function.update store.cleanup subject (some bytes) }
  | .revocation subject =>
    { store with revocation := Function.update store.revocation subject (some bytes) }
  | .checkpoint => { store with checkpoint := some bytes }

variable (store : IdentityStore) (slot : TombstoneSlot) (bytes : List UInt8)

@[simp] lemma bindings_putSlot : (putSlot store slot bytes).bindings = store.bindings := by
  cases slot <;> rfl

lemma slotOf_putSlot :
    slotOf (putSlot store slot bytes) = Function.update (slotOf store) slot (some bytes) := by
  funext other
  cases slot <;> cases other <;> simp [slotOf, putSlot, Function.update_apply]

variable {store : IdentityStore}

lemma store_ext {store' : IdentityStore} (hbindings : store.bindings = store'.bindings)
    (hslots : slotOf store = slotOf store') : store = store' := by
  have hslot (slot : TombstoneSlot) : slotOf store slot = slotOf store' slot :=
    congrFun hslots slot
  obtain ⟨bindings, leave, cleanup, revocation, checkpoint⟩ := store
  obtain ⟨bindings', leave', cleanup', revocation', checkpoint'⟩ := store'
  obtain rfl : bindings = bindings' := hbindings
  obtain rfl : leave = leave' := funext fun node => hslot (.leave node)
  obtain rfl : cleanup = cleanup' := funext fun subject => hslot (.cleanup subject)
  obtain rfl : revocation = revocation' := funext fun subject => hslot (.revocation subject)
  obtain rfl : checkpoint = checkpoint' := hslot .checkpoint
  rfl

lemma putSlot_of_eq {slot : TombstoneSlot} {bytes : List UInt8}
    (h : slotOf store slot = some bytes) : putSlot store slot bytes = store := by
  refine store_ext (bindings_putSlot _ _ _) ?_
  rw [slotOf_putSlot, ← h, Function.update_eq_self]

/-! ## Rules -/

def passedOver : List ErrorKind := [.conflict, .notTrusted, .authenticationFailed]

def convergentRule (decides : List UInt8 → List UInt8 → Result TerminalWinner)
    (slot : Option (List UInt8)) (bytes : List UInt8) : Option (List UInt8) :=
  match persistConvergentTerminalRecord slot bytes decides with
  | .ok kept => some kept
  | .error e => if e.kind ∈ passedOver then slot else none

def checkpointRule : Option (List UInt8) → List UInt8 → Option (List UInt8)
  | none, bytes => some bytes
  | some stored, bytes =>
    if (checkpointFormat.decode stored).isOk then keep checkpointRank (some stored) bytes else none

def slotRule : TombstoneSlot → Option (List UInt8) → List UInt8 → Option (List UInt8)
  | .leave _, slot, bytes => (persistTerminalRecord slot bytes "leave record").toOption
  | .cleanup _, slot, bytes => convergentRule cleanupMerge slot bytes
  | .revocation _, slot, bytes => convergentRule revocationMerge slot bytes
  | .checkpoint, slot, bytes => checkpointRule slot bytes

def TombstoneSlot.Decodes : TombstoneSlot → List UInt8 → Prop
  | .leave _, bytes => (leaveFormat.decode bytes).isOk = true
  | .cleanup _, bytes => (cleanupFormat.decode bytes).isOk = true
  | .revocation _, bytes => (revocationFormat.decode bytes).isOk = true
  | .checkpoint, bytes => (checkpointFormat.decode bytes).isOk = true

section Rules

open RecordFields FieldKind

variable {decides : List UInt8 → List UInt8 → Result TerminalWinner}

lemma leaveRule_eq_some {node : NodeId} {slot : Option (List UInt8)} {bytes kept : List UInt8} :
    slotRule (.leave node) slot bytes = some kept ↔ (∀ stored ∈ slot, stored = bytes) ∧
      kept = bytes := by
  cases slot with
  | none => simp [slotRule, persistTerminalRecord, pure, Except.pure, Except.toOption, eq_comm]
  | some stored =>
    by_cases hsame : stored = bytes
    · simp [slotRule, persistTerminalRecord, require, hsame, pure, Except.pure, Except.toOption,
        eq_comm]
    · simp [slotRule, persistTerminalRecord, require, hsame, Except.toOption]

end Rules

/-! ## Offers -/

section Offers

variable (v : Verifier) (bindings : NodeId → Option PublicKey)

def TombstoneRow.slot? : TombstoneRow → Option TombstoneSlot
  | .leave r => if bindings r.node = some r.publicKey then some (.leave r.node) else none
  | .cleanup r =>
    if bindings r.subject = some r.subjectKey ∧ (bindings r.issuer).any (v.cleanup · r) = true then
      some (.cleanup r.subject)
    else none
  | .revocation r =>
    if bindings r.subject = some r.subjectKey ∧
        (bindings r.issuer).any (v.revocation · r) = true then
      some (.revocation r.subject)
    else none
  | .checkpoint _ => some .checkpoint

def offerOf (watermark : Option Millis) (row : Row) : Option (TombstoneSlot × List UInt8) :=
  match decodeTombstoneRow v row with
  | none => none
  | some decoded =>
    if decoded.stamp.any (collected watermark) = true then none
    else (decoded.slot? v bindings).map (·, row.content)

end Offers

variable {v : Verifier} {bindings : NodeId → Option PublicKey} {row : Row} {rows : List Row}
  {store final : IdentityStore} {evidence : TombstoneEvidence} {watermark : Option Millis}
  {slot : TombstoneSlot} {bytes : List UInt8}

lemma TombstoneRow.slot?_cases (h : decoded.slot? v bindings = some slot) :
    (∃ r, decoded = .leave r ∧ slot = .leave r.node ∧ bindings r.node = some r.publicKey) ∨
      (∃ r, decoded = .cleanup r ∧ slot = .cleanup r.subject ∧
        bindings r.subject = some r.subjectKey) ∨
      (∃ r, decoded = .revocation r ∧ slot = .revocation r.subject ∧
        bindings r.subject = some r.subjectKey) ∨
      ∃ c, decoded = .checkpoint c ∧ slot = .checkpoint := by
  cases decoded with
  | leave r =>
    rw [TombstoneRow.slot?] at h
    split_ifs at h with hkey
    exact .inl ⟨r, rfl, (Option.some.inj h).symm, hkey⟩
  | cleanup r =>
    rw [TombstoneRow.slot?] at h
    split_ifs at h with hadmitted
    exact .inr (.inl ⟨r, rfl, (Option.some.inj h).symm, hadmitted.1⟩)
  | revocation r =>
    rw [TombstoneRow.slot?] at h
    split_ifs at h with hadmitted
    exact .inr (.inr (.inl ⟨r, rfl, (Option.some.inj h).symm, hadmitted.1⟩))
  | checkpoint c => exact .inr (.inr (.inr ⟨c, rfl, (Option.some.inj h).symm⟩))

lemma offerOf_collected {stamp : Millis} (hdecode : decodeTombstoneRow v row = some decoded)
    (hstamp : decoded.stamp = some stamp) (h : collected watermark stamp = true) :
    offerOf v bindings watermark row = none := by
  rw [offerOf, hdecode]
  exact if_pos (by rw [hstamp, Option.any_some, h])

lemma offerOf_fresh (hdecode : decodeTombstoneRow v row = some decoded)
    (h : ∀ stamp ∈ decoded.stamp, collected watermark stamp = false) :
    offerOf v bindings watermark row = (decoded.slot? v bindings).map (·, row.content) := by
  rw [offerOf, hdecode]
  refine if_neg ?_
  cases hstamp : decoded.stamp with
  | none => exact Bool.false_ne_true
  | some stamp =>
    rw [Option.any_some, h stamp hstamp]
    exact Bool.false_ne_true

lemma offerOf_eq_some : offerOf v bindings watermark row = some (slot, bytes) ↔
    ∃ decoded, decodeTombstoneRow v row = some decoded ∧
      (∀ stamp ∈ decoded.stamp, collected watermark stamp = false) ∧
      decoded.slot? v bindings = some slot ∧ row.content = bytes := by
  constructor
  · intro h
    cases hdecode : decodeTombstoneRow v row with
    | none => simp [offerOf, hdecode] at h
    | some decoded =>
      have hfresh : ∀ stamp ∈ decoded.stamp, collected watermark stamp = false := by
        intro stamp hstamp
        by_contra hcollected
        rw [offerOf_collected hdecode hstamp (Bool.not_eq_false _ ▸ hcollected)] at h
        cases h
      rw [offerOf_fresh hdecode hfresh] at h
      obtain ⟨slot', hslot, heq⟩ := Option.map_eq_some_iff.mp h
      cases heq
      exact ⟨decoded, rfl, hfresh, hslot, rfl⟩
  · rintro ⟨decoded, hdecode, hfresh, hslot, rfl⟩
    rw [offerOf_fresh hdecode hfresh, hslot, Option.map_some]

lemma decodes_of_offerOf (h : offerOf v bindings watermark row = some (slot, bytes)) :
    slot.Decodes bytes := by
  obtain ⟨decoded, hdecode, -, hslot, rfl⟩ := offerOf_eq_some.mp h
  have hreads := reads_of_decode hdecode
  rcases TombstoneRow.slot?_cases hslot with
    ⟨r, rfl, rfl, -⟩ | ⟨r, rfl, rfl, -⟩ | ⟨r, rfl, rfl, -⟩ | ⟨c, rfl, rfl⟩
  · exact congrArg Except.isOk hreads.1
  · exact congrArg Except.isOk hreads
  · exact congrArg Except.isOk hreads
  · exact congrArg Except.isOk hreads

lemma cleanup_of_offerOf {subject : NodeId}
    (h : offerOf v bindings watermark row = some (.cleanup subject, bytes)) :
    ∃ r, cleanupFormat.decode bytes = .ok r ∧ bindings subject = some r.subjectKey := by
  obtain ⟨decoded, hdecode, -, hslot, rfl⟩ := offerOf_eq_some.mp h
  rcases TombstoneRow.slot?_cases hslot with
    ⟨r, -, hcleanup, -⟩ | ⟨r, rfl, hcleanup, hkey⟩ | ⟨r, -, hcleanup, -⟩ | ⟨c, -, hcleanup⟩
  · cases hcleanup
  · obtain rfl := TombstoneSlot.cleanup.inj hcleanup
    exact ⟨r, reads_of_decode hdecode, hkey⟩
  · cases hcleanup
  · cases hcleanup

lemma revocation_of_offerOf {subject : NodeId}
    (h : offerOf v bindings watermark row = some (.revocation subject, bytes)) :
    ∃ r, revocationFormat.decode bytes = .ok r ∧ bindings subject = some r.subjectKey := by
  obtain ⟨decoded, hdecode, -, hslot, rfl⟩ := offerOf_eq_some.mp h
  rcases TombstoneRow.slot?_cases hslot with
    ⟨r, -, hrevocation, -⟩ | ⟨r, -, hrevocation, -⟩ | ⟨r, rfl, hrevocation, hkey⟩ | ⟨c, -,
      hrevocation⟩
  · cases hrevocation
  · cases hrevocation
  · obtain rfl := TombstoneSlot.revocation.inj hrevocation
    exact ⟨r, reads_of_decode hdecode, hkey⟩
  · cases hrevocation

/-! ## One row -/

def takeOffer (store : IdentityStore) : Option (TombstoneSlot × List UInt8) → Option IdentityStore
  | none => some store
  | some (slot, bytes) => (slotRule slot (slotOf store slot) bytes).map (putSlot store slot)

variable {decides : List UInt8 → List UInt8 → Result TerminalWinner}

lemma passingOver_convergent (slot : TombstoneSlot) : (passingOver passedOver store
        (persistConvergentTerminalRecord (slotOf store slot) bytes decides >>= fun kept =>
          pure (putSlot store slot kept))).toOption =
      (convergentRule decides (slotOf store slot) bytes).map (putSlot store slot) := by
  unfold convergentRule
  cases hpersist : persistConvergentTerminalRecord (slotOf store slot) bytes decides with
  | ok kept => rfl
  | error e =>
    rw [error_bind, passingOver]
    dsimp only
    by_cases hkind : e.kind ∈ passedOver
    · rw [if_pos hkind, if_pos hkind]
      cases hslot : slotOf store slot with
      | none =>
        rw [hslot] at hpersist
        cases hpersist
      | some stored =>
        rw [Option.map_some, putSlot_of_eq hslot]
        rfl
    · rw [if_neg hkind, if_neg hkind]
      rfl

section Step

variable (hbindings : evidence.bindings = store.bindings)
include hbindings

lemma applyRow_leave_offer {r : LeaveRecordV1}
    (hdecode : decodeTombstoneRow v row = some (.leave r)) :
    (applyRow v evidence store (.leave r)).toOption =
      takeOffer store (offerOf v store.bindings evidence.checkpoint row) := by
  obtain ⟨hr, hverifies⟩ := reads_of_decode hdecode
  rw [applyRow, applyLeaveRecord]
  cases hcollected : collected evidence.checkpoint r.timestampMillis with
  | true =>
    rw [offerOf_collected hdecode rfl hcollected]
    rfl
  | false =>
  rw [offerOf_fresh hdecode fun stamp hstamp => Option.some.inj hstamp ▸ hcollected,
    if_neg Bool.false_ne_true, TombstoneRow.slot?, hbindings]
  by_cases hkey : store.bindings r.node = some r.publicKey
  · have hbound : ∀ bound ∈ store.bindings r.node, bound = r.publicKey :=
      fun bound hb => Option.some.inj (hb.symm.trans hkey)
    rw [if_pos hkey, hkey]
    simp only [persistLeaveRecord, require, if_true, hverifies, ok_bind, if_pos hbound,
      RecordFormat.decode_eq_ok.mp hr, Option.map_some, takeOffer, slotOf]
    -- A divergent record conflicts, and a leave row is not passed over for that.
    by_cases hsame : ∀ stored ∈ store.leave r.node, stored = row.content
    · rw [leaveRule_eq_some.mpr ⟨hsame, rfl⟩, (persistTerminalRecord_keep "leave record" hsame).1]
      rfl
    · obtain ⟨stored, hstored, hne⟩ : ∃ stored, store.leave r.node = some stored ∧
          stored ≠ row.content := by
        push Not at hsame
        exact hsame
      have hrefused : slotRule (.leave r.node) (store.leave r.node) row.content = none := by
        rw [Option.eq_none_iff_forall_ne_some]
        exact fun kept hkept => hsame (leaveRule_eq_some.mp hkept).1
      rw [hrefused, hstored, persistTerminalRecord, require, if_neg hne]
      rfl
  · rw [if_neg hkey]
    cases hbound : store.bindings r.node with
    | none => rfl
    | some bound =>
      have hne : bound ≠ r.publicKey := fun h => hkey (h ▸ hbound)
      simp [require, hne, passingOver, Error.notTrusted, error_bind, takeOffer, Except.toOption]

lemma applyRow_cleanup_offer {r : CleanupRecordV1}
    (hdecode : decodeTombstoneRow v row = some (.cleanup r)) :
    (applyRow v evidence store (.cleanup r)).toOption =
      takeOffer store (offerOf v store.bindings evidence.checkpoint row) := by
  have hr : cleanupFormat.decode row.content = .ok r := reads_of_decode hdecode
  rw [applyRow, applyCleanupRecord]
  cases hcollected : collected evidence.checkpoint r.timestampMillis with
  | true =>
    rw [offerOf_collected hdecode rfl hcollected]
    rfl
  | false =>
  rw [offerOf_fresh hdecode fun stamp hstamp => Option.some.inj hstamp ▸ hcollected,
    if_neg Bool.false_ne_true, TombstoneRow.slot?, hbindings]
  refine (congrArg Except.toOption (passingOver_admission _)).trans ?_
  split_ifs with hadmitted
  · rw [RecordFormat.decode_eq_ok.mp hr, ok_bind]
    exact passingOver_convergent (.cleanup r.subject)
  · rfl

lemma applyRow_revocation_offer {r : RevocationRecordV1}
    (hdecode : decodeTombstoneRow v row = some (.revocation r)) :
    (applyRow v evidence store (.revocation r)).toOption =
      takeOffer store (offerOf v store.bindings evidence.checkpoint row) := by
  have hr : revocationFormat.decode row.content = .ok r := reads_of_decode hdecode
  rw [applyRow, applyRevocationRecord, offerOf_fresh hdecode fun _ h =>
    absurd h (Option.not_mem_none _), TombstoneRow.slot?, hbindings]
  refine (congrArg Except.toOption (passingOver_admission _)).trans ?_
  split_ifs with hadmitted
  · rw [RecordFormat.decode_eq_ok.mp hr, ok_bind]
    exact passingOver_convergent (.revocation r.subject)
  · rfl

end Step

variable {c : CleanupCheckpointV1}

lemma applyRow_checkpoint_offer (hdecode : decodeTombstoneRow v row = some (.checkpoint c)) :
    (applyRow v evidence store (.checkpoint c)).toOption =
      takeOffer store (offerOf v store.bindings evidence.checkpoint row) := by
  have hc : checkpointFormat.decode row.content = .ok c := reads_of_decode hdecode
  have hrank : checkpointRank row.content = -c.watermarkMillis.1 := by rw [checkpointRank, hc]
  simp only [offerOf_fresh hdecode fun _ h => absurd h (Option.not_mem_none _), TombstoneRow.slot?,
    Option.map_some, takeOffer, slotRule,
    slotOf]
  rw [applyRow, applyCheckpointRecord, persistCheckpoint, checkpointCovers, latestCheckpointMillis]
  cases hslot : store.checkpoint with
  | none =>
    simp only [ok_bind, RecordFormat.decode_eq_ok.mp hc]
    rfl
  | some stored =>
    cases hstored : checkpointFormat.decode stored with
    | error e =>
      simp only [hstored, Except.map, error_bind, checkpointRule]
      rfl
    | ok c' =>
      have hrank' : checkpointRank stored = -c'.watermarkMillis.1 := by
        rw [checkpointRank, hstored]
      simp only [hstored, Except.map, pure_eq_ok, ok_bind, Option.any_some, checkpointRule, keep,
        hrank, hrank', neg_lt_neg_iff, decide_eq_true_eq, Except.isOk, Except.toBool, if_true]
      by_cases hcovers : c.watermarkMillis.1 ≤ c'.watermarkMillis.1
      · rw [if_pos hcovers, if_neg (not_lt.mpr hcovers), Option.map_some,
          putSlot_of_eq (show slotOf store .checkpoint = some stored from hslot)]
        rfl
      · rw [if_neg hcovers, if_pos (not_le.mp hcovers), RecordFormat.decode_eq_ok.mp hc]
        rfl

/-- **One decoded row makes its offer.** -/
theorem applyRow_offer (hbindings : evidence.bindings = store.bindings)
    (hdecode : decodeTombstoneRow v row = some decoded) :
    (applyRow v evidence store decoded).toOption =
      takeOffer store (offerOf v store.bindings evidence.checkpoint row) := by
  cases decoded with
  | leave r => exact applyRow_leave_offer hbindings hdecode
  | cleanup r => exact applyRow_cleanup_offer hbindings hdecode
  | revocation r => exact applyRow_revocation_offer hbindings hdecode
  | checkpoint c => exact applyRow_checkpoint_offer hdecode

variable {next : IdentityStore} {offer : Option (TombstoneSlot × List UInt8)}

lemma applyRow_eq_ok (hbindings : evidence.bindings = store.bindings)
    (hdecode : decodeTombstoneRow v row = some decoded) :
    applyRow v evidence store decoded = .ok next ↔
      takeOffer store (offerOf v store.bindings evidence.checkpoint row) = some next := by
  rw [← applyRow_offer hbindings hdecode]
  cases applyRow v evidence store decoded <;> simp [Except.toOption]

lemma convergentRule_follows {κ : Type} [LinearOrder κ] {rank : List UInt8 → κ}
    {held : Option (List UInt8)} (h : ∀ stored ∈ held, Follows rank decides stored bytes) :
    convergentRule decides held bytes = keep rank held bytes := by
  obtain ⟨winner, hpersist, hkeep⟩ := persistConvergentTerminalRecord_keep h
  rw [convergentRule, hpersist, hkeep]

end Radiata.Membership
