import Radiata.Membership.TombstoneOffer

/-!
# The order of tombstone rows

What the store holds after any batches of tombstone rows is read off the rows: every slot
is a register that keeps the best of the candidates the rows put forward for it.  The
four families rank their candidates differently.  A leave record is the only one of its
node; a cleanup record ranks by stamp and then by its bytes; a revocation record ranks by
its bytes; a checkpoint ranks by its watermark alone.

The last rank is the one that forgets something: two checkpoints of one watermark may
name different issuers, and then the order of the rows decides which one stays.
-/

namespace Radiata.Membership

open Lib Identity Reconcile

/-! ## Candidates and ranks -/

section

variable (v : Verifier) (bindings : NodeId → Option PublicKey) (node : NodeId) (row : Row)

def leaveCandidate : Option (List UInt8) :=
  match decodeTombstoneRow v row with
  | some (.leave r) =>
    if r.node = node ∧ bindings node = some r.publicKey then some row.content else none
  | _ => none

def cleanupCandidate : Option (List UInt8) :=
  match decodeTombstoneRow v row with
  | some (.cleanup r) =>
    if r.subject = node ∧ bindings node = some r.subjectKey ∧
        (bindings r.issuer).any (v.cleanup · r) = true then some row.content
    else none
  | _ => none

def revocationCandidate : Option (List UInt8) :=
  match decodeTombstoneRow v row with
  | some (.revocation r) =>
    if r.subject = node ∧ bindings node = some r.subjectKey ∧
        (bindings r.issuer).any (v.revocation · r) = true then some row.content
    else none
  | _ => none

def checkpointCandidate : Option (List UInt8) :=
  match decodeTombstoneRow v row with
  | some (.checkpoint _) => some row.content
  | _ => none

def settledStore (rows : List Row) : IdentityStore where
  bindings := bindings
  leave node := settled (fun _ => ()) (leaveCandidate v bindings node) rows
  cleanup node := settled cleanupRank (cleanupCandidate v bindings node) rows
  revocation node := settled id (revocationCandidate v bindings node) rows
  checkpoint := settled checkpointRank (checkpointCandidate v) rows

lemma settledStore_checkpoint (rows : List Row) : (settledStore v bindings rows).checkpoint =
    settled checkpointRank (checkpointCandidate v) rows := rfl

end

variable {v : Verifier} {bindings : NodeId → Option PublicKey} {rows : List Row} {row : Row}

def SignsOneLeave (v : Verifier) : Prop :=
  ∀ r r', v.leave r = true → v.leave r' = true → r.node = r'.node → r.publicKey = r'.publicKey →
    r = r'

variable {node : NodeId} {bytes : List UInt8}

lemma leaveCandidate_eq_some (h : leaveCandidate v bindings node row = some bytes) :
    ∃ r, leaveFormat.decode bytes = .ok r ∧ v.leave r = true ∧ r.node = node ∧
      bindings node = some r.publicKey := by
  unfold leaveCandidate at h
  split at h
  · rename_i r hdecode
    split_ifs at h with hfits
    obtain rfl := Option.some.inj h
    obtain ⟨hr, hverifies⟩ := reads_of_decode hdecode
    exact ⟨r, hr, hverifies, hfits⟩
  · cases h

lemma checkpointCandidate_eq_some : checkpointCandidate v row = some bytes ↔
      ∃ c, decodeTombstoneRow v row = some (.checkpoint c) ∧ row.content = bytes := by
  unfold checkpointCandidate
  split
  · rename_i c hdecode
    simp [hdecode]
  · rename_i hother
    simp only [reduceCtorEq, false_iff, not_exists, not_and]
    exact fun c hc => absurd hc (hother c)

lemma leaveCandidate_unique (hsigns : SignsOneLeave v) {row' : Row} {a b : List UInt8}
    (ha : leaveCandidate v bindings node row = some a)
    (hb : leaveCandidate v bindings node row' = some b) : a = b := by
  obtain ⟨r, hr, hverifies, hnode, hkey⟩ := leaveCandidate_eq_some ha
  obtain ⟨r', hr', hverifies', hnode', hkey'⟩ := leaveCandidate_eq_some hb
  have hkeys : r.publicKey = r'.publicKey := Option.some.inj (hkey.symm.trans hkey')
  obtain rfl := hsigns r r' hverifies hverifies' (hnode.trans hnode'.symm) hkeys
  exact RecordFormat.bytes_eq_of_decode hr hr'

/-! ## A row moves the registers by its offer -/

/-- What a row puts forward for a slot. -/
def candidateOf (v : Verifier) (bindings : NodeId → Option PublicKey) :
    TombstoneSlot → Row → Option (List UInt8)
  | .leave node => leaveCandidate v bindings node
  | .cleanup subject => cleanupCandidate v bindings subject
  | .revocation subject => revocationCandidate v bindings subject
  | .checkpoint => checkpointCandidate v

variable {slot : TombstoneSlot}

lemma candidateOf_eq_some : candidateOf v bindings slot row = some bytes ↔
    offerOf v bindings none row = some (slot, bytes) := by
  cases hdecode : decodeTombstoneRow v row with
  | none =>
    cases slot <;> simp [candidateOf, leaveCandidate, cleanupCandidate, revocationCandidate,
      checkpointCandidate, offerOf, hdecode]
  | some decoded =>
    rw [offerOf_fresh hdecode fun _ _ => rfl]
    cases slot <;> cases decoded <;> simp [candidateOf, leaveCandidate, cleanupCandidate,
      revocationCandidate, checkpointCandidate, hdecode, TombstoneRow.slot?]
    all_goals grind

lemma candidateOf_eq_none (h : ∀ bytes, offerOf v bindings none row ≠ some (slot, bytes)) :
    candidateOf v bindings slot row = none :=
  Option.eq_none_iff_forall_ne_some.mpr fun bytes hbytes => h bytes (candidateOf_eq_some.mp hbytes)

lemma slotOf_settledStore_of_none (h : candidateOf v bindings slot row = none) :
    slotOf (settledStore v bindings (rows ++ [row])) slot =
      slotOf (settledStore v bindings rows) slot := by
  cases slot <;> exact settled_concat_none h rows

lemma settledStore_of_none (h : offerOf v bindings none row = none) :
    settledStore v bindings (rows ++ [row]) = settledStore v bindings rows := by
  refine store_ext rfl (funext fun slot => slotOf_settledStore_of_none (candidateOf_eq_none ?_))
  rw [h]
  exact fun _ => nofun

lemma exists_candidateOf {held : List UInt8}
    (h : slotOf (settledStore v bindings rows) slot = some held) :
    ∃ row, candidateOf v bindings slot row = some held := by
  cases slot <;>
  · obtain ⟨row, -, hrow⟩ := settled_eq_some h
    exact ⟨row, hrow⟩

/-- The rule of a slot keeps the better of the two candidates. -/
theorem slotRule_settledStore (hsigns : SignsOneLeave v) (rows : List Row)
    (h : candidateOf v bindings slot row = some bytes) :
    slotRule slot (slotOf (settledStore v bindings rows) slot) bytes =
      slotOf (settledStore v bindings (rows ++ [row])) slot := by
  have hheld {held : List UInt8} (hslot : slotOf (settledStore v bindings rows) slot = some held) :=
    exists_candidateOf hslot
  cases slot with
  | leave node =>
    have honly : ∀ held, (settledStore v bindings rows).leave node = some held → held = bytes := by
      intro held hslot
      obtain ⟨row', hrow'⟩ := hheld hslot
      exact leaveCandidate_unique hsigns hrow' h
    obtain ⟨hpersist, hkeep⟩ := persistTerminalRecord_keep "leave record" honly
    exact (congrArg Except.toOption hpersist).trans
      (hkeep.symm.trans (settled_concat_some h rows).symm)
  | cleanup subject =>
    refine (convergentRule_follows fun held hslot => ?_).trans (settled_concat_some h rows).symm
    obtain ⟨row', hrow'⟩ := hheld hslot
    obtain ⟨r, hr, hkey⟩ := cleanup_of_offerOf (candidateOf_eq_some.mp hrow')
    obtain ⟨r', hr', hkey'⟩ := cleanup_of_offerOf (candidateOf_eq_some.mp h)
    exact cleanupMerge_follows hr hr' (Option.some.inj (hkey.symm.trans hkey'))
  | revocation subject =>
    refine (convergentRule_follows fun held hslot => ?_).trans (settled_concat_some h rows).symm
    obtain ⟨row', hrow'⟩ := hheld hslot
    obtain ⟨r, hr, hkey⟩ := revocation_of_offerOf (candidateOf_eq_some.mp hrow')
    obtain ⟨r', hr', hkey'⟩ := revocation_of_offerOf (candidateOf_eq_some.mp h)
    exact revocationMerge_follows hr hr' (Option.some.inj (hkey.symm.trans hkey'))
  | checkpoint =>
    have hrule {held : Option (List UInt8)} (hok : ∀ stored ∈ held,
        (checkpointFormat.decode stored).isOk = true) :
        checkpointRule held bytes = keep checkpointRank held bytes := by
      cases held with
      | none => rfl
      | some stored => exact if_pos (hok stored rfl)
    refine (hrule fun held hslot => ?_).trans (settled_concat_some h rows).symm
    obtain ⟨row', hrow'⟩ := hheld hslot
    exact decodes_of_offerOf (candidateOf_eq_some.mp hrow')

lemma takeOffer_settledStore (hsigns : SignsOneLeave v) (rows : List Row) (row : Row) :
    takeOffer (settledStore v bindings rows) (offerOf v bindings none row) =
      some (settledStore v bindings (rows ++ [row])) := by
  cases hrow : offerOf v bindings none row with
  | none => rw [takeOffer, settledStore_of_none hrow]
  | some offer =>
    obtain ⟨slot, bytes⟩ := offer
    have hcandidate := candidateOf_eq_some.mpr hrow
    have hnext : slotOf (settledStore v bindings (rows ++ [row])) slot ≠ none := by
      cases slot <;>
        exact fun hnone => keep_ne_none _ _ ((settled_concat_some hcandidate rows).symm.trans hnone)
    obtain ⟨kept, hkept⟩ := Option.ne_none_iff_exists'.mp hnext
    rw [takeOffer, slotRule_settledStore hsigns rows hcandidate, hkept, Option.map_some]
    refine congrArg some (store_ext (bindings_putSlot _ _ _) (funext fun other => ?_))
    rw [slotOf_putSlot]
    rcases eq_or_ne other slot with rfl | hne
    · rw [Function.update_self, hkept]
    · rw [Function.update_of_ne hne]
      refine (slotOf_settledStore_of_none (candidateOf_eq_none fun offered hoffered => hne ?_)).symm
      exact (congrArg Prod.fst (Option.some.inj (hrow.symm.trans hoffered))).symm

lemma latestCheckpointMillis_settled (v : Verifier) (bindings : NodeId → Option PublicKey)
    (rows : List Row) :
    ∃ stored, latestCheckpointMillis (settledStore v bindings rows) = .ok stored ∧
      ∀ w ∈ stored, ∃ row ∈ rows, ∃ c, decodeTombstoneRow v row = some (.checkpoint c) ∧
        c.watermarkMillis = w := by
  unfold latestCheckpointMillis
  cases hslot : (settledStore v bindings rows).checkpoint with
  | none => exact ⟨none, rfl, fun w hw => absurd hw (Option.not_mem_none w)⟩
  | some bytes =>
    obtain ⟨row, hrow, hcandidate⟩ := settled_eq_some hslot
    obtain ⟨c, hdecode, rfl⟩ := checkpointCandidate_eq_some.mp hcandidate
    have hc : checkpointFormat.decode row.content = .ok c := reads_of_decode hdecode
    refine ⟨some c.watermarkMillis, by simp only [hc, Except.map], ?_⟩
    rintro w ⟨⟩
    exact ⟨row, hrow, c, hdecode, rfl⟩

variable {evidence : TombstoneEvidence} {decoded : TombstoneRow} {c : CleanupCheckpointV1}

/-! ## Batches -/

def StampedAbove (v : Verifier) (rows : List Row) : Prop :=
  ∀ row ∈ rows, ∀ row' ∈ rows, ∀ decoded c, decodeTombstoneRow v row = some decoded →
    decodeTombstoneRow v row' = some (.checkpoint c) → ∀ stamp ∈ decoded.stamp,
      c.watermarkMillis.1 < stamp.1

section

variable (hsigns : SignsOneLeave v)
include hsigns

/-- **One decoded row moves every register by its candidates.** -/
theorem applyRow_settled (hbindings : evidence.bindings = bindings)
    (hdecode : decodeTombstoneRow v row = some decoded)
    (hfresh : ∀ stamp ∈ decoded.stamp, collected evidence.checkpoint stamp = false) :
    applyRow v evidence (settledStore v bindings rows) decoded =
      .ok (settledStore v bindings (rows ++ [row])) := by
  have hbindings : evidence.bindings = (settledStore v bindings rows).bindings := hbindings
  rw [applyRow_eq_ok hbindings hdecode, offerOf_fresh hdecode hfresh,
    ← takeOffer_settledStore hsigns rows row, offerOf_fresh hdecode fun _ _ => rfl]
  rfl

lemma applyRowsUnder_settled (hbindings : evidence.bindings = bindings) {batch : List Row}
    (hfresh : ∀ row ∈ batch, ∀ decoded, decodeTombstoneRow v row = some decoded → ∀ stamp ∈
      decoded.stamp, collected evidence.checkpoint stamp = false) (rows : List Row) :
    applyRowsUnder v evidence (settledStore v bindings rows) batch =
      (settledStore v bindings (rows ++ batch),
        .ok (batch.filter fun row => (decodeTombstoneRow v row).isNone)) := by
  induction batch generalizing rows with
  | nil => rw [applyRowsUnder, List.append_nil, List.filter_nil]
  | cons row batch ih =>
    have ih := ih (fun r hr => hfresh r (List.mem_cons_of_mem _ hr))
    rw [applyRowsUnder, List.append_cons]
    cases hdecode : decodeTombstoneRow v row with
    | none =>
      have hsame : settledStore v bindings (rows ++ [row]) = settledStore v bindings rows :=
        settledStore_of_none (by rw [offerOf, hdecode])
      rw [← hsame, List.filter_cons_of_pos (by rw [hdecode]; rfl)]
      simp only [ih (rows ++ [row]), Except.map]
    | some decoded =>
      rw [List.filter_cons_of_neg (by rw [hdecode]; exact Bool.false_ne_true)]
      dsimp only
      rw [applyRow_settled hsigns hbindings hdecode (hfresh row List.mem_cons_self _ hdecode)]
      exact ih (rows ++ [row])

lemma applyTombstoneRows_settled {batch : List Row} (hstamped : StampedAbove v (rows ++ batch)) :
    applyTombstoneRows v (settledStore v bindings rows) batch =
      (settledStore v bindings (rows ++ batch),
        .ok (batch.filter fun row => (decodeTombstoneRow v row).isNone)) := by
  obtain ⟨stored, hlatest, hstored⟩ := latestCheckpointMillis_settled v bindings rows
  rw [applyTombstoneRows, tombstoneEvidence, hlatest]
  refine applyRowsUnder_settled hsigns rfl ?_ rows
  intro row hrow decoded hdecode stamp hstamp
  show collected stored stamp = false
  cases hwatermark : stored with
  | none => rfl
  | some w =>
    obtain ⟨row', hrow', c, hc, rfl⟩ := hstored w hwatermark
    have hlt := hstamped row (List.mem_append_right _ hrow) row' (List.mem_append_left _ hrow')
      decoded c hdecode hc stamp hstamp
    exact decide_eq_false (not_le.mpr hlt)

end

variable {rows' : List Row}

lemma StampedAbove.mono (h : StampedAbove v rows') (hsub : ∀ row ∈ rows, row ∈ rows') :
    StampedAbove v rows :=
  fun row hrow row' hrow' => h row (hsub row hrow) row' (hsub row' hrow')

/-- **What any batches leave is read off their rows.** -/
theorem applyBatches_settled (hsigns : SignsOneLeave v) {batches : List (List Row)}
    (hstamped : StampedAbove v batches.flatten) :
    applyBatches v (.bound bindings) batches = settledStore v bindings batches.flatten := by
  induction batches using List.reverseRecOn with
  | nil => rfl
  | append_singleton batches batch ih =>
    have hflat : (batches ++ [batch]).flatten = batches.flatten ++ batch := by simp
    rw [hflat] at hstamped ⊢
    rw [applyBatches, List.foldl_append, List.foldl_cons, List.foldl_nil]
    have ih := ih (hstamped.mono fun row hrow => List.mem_append_left _ hrow)
    rw [applyBatches] at ih
    rw [ih, applyTombstoneRows_settled hsigns hstamped]

/-! ## Order independence -/

def Delivers (batches : List (List Row)) (rows : List Row) : Prop :=
  ∀ row, row ∈ batches.flatten ↔ row ∈ rows

def Highest (v : Verifier) (rows : List Row) (c : CleanupCheckpointV1) : Prop :=
  (∃ row ∈ rows, decodeTombstoneRow v row = some (.checkpoint c)) ∧
    ∀ row ∈ rows, ∀ c', decodeTombstoneRow v row = some (.checkpoint c') →
      c'.watermarkMillis.1 ≤ c.watermarkMillis.1

lemma least_checkpoint_iff : Least checkpointRank (rows.filterMap (checkpointCandidate v)) bytes ↔
      ∃ c, Highest v rows c ∧ ∃ row ∈ rows, decodeTombstoneRow v row = some (.checkpoint c) ∧
        row.content = bytes := by
  have hrank {row : Row} {c : CleanupCheckpointV1}
      (h : decodeTombstoneRow v row = some (.checkpoint c)) :
      checkpointRank row.content = -c.watermarkMillis.1 := by
    have hc : checkpointFormat.decode row.content = .ok c := reads_of_decode h
    rw [checkpointRank, hc]
  constructor
  · rintro ⟨hmem, hleast⟩
    obtain ⟨row, hrow, hcandidate⟩ := List.mem_filterMap.mp hmem
    obtain ⟨c, hc, rfl⟩ := checkpointCandidate_eq_some.mp hcandidate
    refine ⟨c, ⟨⟨row, hrow, hc⟩, ?_⟩, row, hrow, hc, rfl⟩
    intro row' hrow' c' hc'
    have hle := hleast row'.content
      (List.mem_filterMap.mpr ⟨row', hrow', checkpointCandidate_eq_some.mpr ⟨c', hc', rfl⟩⟩)
    rw [hrank hc, hrank hc'] at hle
    exact neg_le_neg_iff.mp hle
  · rintro ⟨c, ⟨-, hhighest⟩, row, hrow, hc, rfl⟩
    refine ⟨List.mem_filterMap.mpr ⟨row, hrow, checkpointCandidate_eq_some.mpr ⟨c, hc, rfl⟩⟩, ?_⟩
    intro bytes' hbytes'
    obtain ⟨row', hrow', hcandidate'⟩ := List.mem_filterMap.mp hbytes'
    obtain ⟨c', hc', rfl⟩ := checkpointCandidate_eq_some.mp hcandidate'
    rw [hrank hc, hrank hc']
    exact neg_le_neg (hhighest row' hrow' c' hc')

lemma settledStore_congr (hsigns : SignsOneLeave v) (hmem : ∀ row, row ∈ rows ↔ row ∈ rows')
    (hhighest : ∀ c c', Highest v rows c → Highest v rows c' → c = c') :
    settledStore v bindings rows = settledStore v bindings rows' := by
  have hleave (node : NodeId) : settled (fun _ => ()) (leaveCandidate v bindings node) rows =
      settled (fun _ => ()) (leaveCandidate v bindings node) rows' := by
    refine settled_congr hmem fun a b ha hb => ?_
    obtain ⟨row, -, hrow⟩ := List.mem_filterMap.mp ha.1
    obtain ⟨row', -, hrow'⟩ := List.mem_filterMap.mp hb.1
    exact leaveCandidate_unique hsigns hrow hrow'
  have hcleanup (node : NodeId) : settled cleanupRank (cleanupCandidate v bindings node) rows =
      settled cleanupRank (cleanupCandidate v bindings node) rows' := by
    refine settled_congr hmem fun a b ha hb => ?_
    have hrank : cleanupRank a = cleanupRank b := le_antisymm (ha.2 b hb.1) (hb.2 a ha.1)
    exact (Prod.mk.inj (toLex.injective hrank)).2
  have hrevocation (node : NodeId) : settled id (revocationCandidate v bindings node) rows =
      settled id (revocationCandidate v bindings node) rows' :=
    settled_congr hmem fun a b ha hb => le_antisymm (ha.2 b hb.1) (hb.2 a ha.1)
  have hcheckpoint : settled checkpointRank (checkpointCandidate v) rows =
      settled checkpointRank (checkpointCandidate v) rows' := by
    refine settled_congr hmem fun a b ha hb => ?_
    obtain ⟨c, hc, row, -, hrow, rfl⟩ := least_checkpoint_iff.mp ha
    obtain ⟨c', hc', row', -, hrow', rfl⟩ := least_checkpoint_iff.mp hb
    obtain rfl := hhighest c c' hc hc'
    exact RecordFormat.bytes_eq_of_decode (f := checkpointFormat) (reads_of_decode hrow)
      (reads_of_decode hrow')
  unfold settledStore
  simp only [hleave, hcleanup, hrevocation, hcheckpoint]

lemma settled_highest_first (hdecode : decodeTombstoneRow v row = some (.checkpoint c))
    (hhighest : Highest v (row :: rows) c) :
    settled checkpointRank (checkpointCandidate v) (row :: rows) = some row.content := by
  have hleast := (least_checkpoint_iff.mpr ⟨c, hhighest, row, List.mem_cons_self, hdecode, rfl⟩).2
  have hcons := List.filterMap_cons_some
    (l := rows) (checkpointCandidate_eq_some.mpr ⟨c, hdecode, rfl⟩)
  rw [settled, hcons]
  rw [hcons] at hleast
  exact settle_cons_of_least fun bytes hbytes => hleast bytes (List.mem_cons_of_mem _ hbytes)

lemma Highest.congr (h : Highest v rows c) (hmem : ∀ row, row ∈ rows ↔ row ∈ rows') :
    Highest v rows' c := by
  simpa only [Highest, hmem] using h

/-- **The stored tombstones are independent of order, repetition and batching exactly when
the rows' highest checkpoint is a single record.**  Everything else about the rows is
forgotten; a tie between checkpoints of different issuers is settled by whichever came
first. -/
theorem applyBatches_order_independent_iff (hsigns : SignsOneLeave v)
    (hstamped : StampedAbove v rows) :
    (∀ batches batches', Delivers batches rows → Delivers batches' rows →
      applyBatches v (.bound bindings) batches = applyBatches v (.bound bindings) batches') ↔
      ∀ c c', Highest v rows c → Highest v rows c' → c = c' := by
  have hsettled {batches : List (List Row)} (h : Delivers batches rows) :
      applyBatches v (.bound bindings) batches = settledStore v bindings batches.flatten :=
    applyBatches_settled hsigns (hstamped.mono fun row => (h row).mp)
  constructor
  · intro hsame c c' hc hc'
    obtain ⟨row, hrow, hdecode⟩ := hc.1
    obtain ⟨row', hrow', hdecode'⟩ := hc'.1
    -- Either tied row may be the first to arrive.
    have hmem {first : Row} (hfirst : first ∈ rows) (row : Row) : row ∈ first :: rows ↔
        row ∈ rows :=
      List.mem_cons.trans ⟨fun h => h.elim (fun h => h ▸ hfirst) id, .inr⟩
    have hdelivers {first : Row} (hfirst : first ∈ rows) : Delivers [first :: rows] rows := by
      intro row
      rw [List.flatten_singleton]
      exact hmem hfirst row
    have hstores := hsame _ _ (hdelivers hrow) (hdelivers hrow')
    rw [hsettled (hdelivers hrow), hsettled (hdelivers hrow')] at hstores
    have hslots := congrArg IdentityStore.checkpoint hstores
    simp only [settledStore_checkpoint, List.flatten_singleton,
      settled_highest_first hdecode (hc.congr fun r => (hmem hrow r).symm),
      settled_highest_first hdecode' (hc'.congr fun r => (hmem hrow' r).symm)] at hslots
    have hcontent : row.content = row'.content := Option.some.inj hslots
    have hread : checkpointFormat.decode row.content = .ok c := reads_of_decode hdecode
    have hread' : checkpointFormat.decode row'.content = .ok c' := reads_of_decode hdecode'
    rw [hcontent, hread'] at hread
    exact (Except.ok.inj hread).symm
  · intro hhighest batches batches' h h'
    rw [hsettled h, hsettled h']
    refine settledStore_congr hsigns (fun row => (h row).trans (h' row).symm) ?_
    intro c c' hc hc'
    exact hhighest c c' (hc.congr h) (hc'.congr h)

/-! ## Two replicas -/

lemma mem_of_decode_rows {records : List TombstoneRow} (h : records.all (·.valid v) = true)
    {decoded : TombstoneRow} (hrow : row ∈ records.map TombstoneRow.row)
    (hdecode : decodeTombstoneRow v row = some decoded) : decoded ∈ records := by
  obtain ⟨record, hrecord, rfl⟩ := List.mem_map.mp hrow
  rw [decodeTombstoneRow_row (List.all_eq_true.mp h record hrecord)] at hdecode
  exact Option.some.inj hdecode ▸ hrecord

def member (n : Fin 3) : NodeId :=
  ⟨"node-00000000000000000000".toList ++ [Char.ofNat (48 + n)], by revert n; decide +kernel⟩

def memberKey (n : Fin 3) : PublicKey := ⟨List.replicate 32 (UInt8.ofNat n), List.length_replicate⟩

def stampAt (n : Fin 10) : Millis := ⟨n, by omega⟩

def sampleSignature : Signature := ⟨List.replicate 64 0, List.length_replicate⟩

def sampleLeave : LeaveRecordV1 := ⟨member 0, memberKey 0, stampAt 5, sampleSignature⟩

def sampleCleanup (issuer : Fin 3) : CleanupRecordV1 :=
  ⟨member 2, memberKey 2, member issuer, stampAt 6, sampleSignature⟩

def sampleCheckpoint (issuer : Fin 3) : CleanupCheckpointV1 := ⟨stampAt 4, member issuer⟩

def sampleVerifier : Verifier := ⟨fun r => r = sampleLeave, fun _ _ => true, fun _ _ => true⟩

lemma sampleVerifier_signsOneLeave : SignsOneLeave sampleVerifier := by
  intro r r' hr hr' _ _
  exact (of_decide_eq_true hr).trans (of_decide_eq_true hr').symm

def sampleBindings (node : NodeId) : Option PublicKey :=
  some (if node = member 0 then memberKey 0 else memberKey 2)

def sampleRecords : List TombstoneRow :=
  [.leave sampleLeave, .cleanup (sampleCleanup 0), .cleanup (sampleCleanup 1),
    .checkpoint (sampleCheckpoint 0)]

lemma sampleRecords_valid : sampleRecords.all (·.valid sampleVerifier) = true := by
  decide +kernel

def sampleRows : List Row := sampleRecords.map TombstoneRow.row

/-- Two cleanups of one member with one stamp settle the same way in one batch, and in single
batches in the opposite order with every row twice. -/
theorem order_independent_sample :
    applyBatches sampleVerifier (.bound sampleBindings) [sampleRows] =
      applyBatches sampleVerifier (.bound sampleBindings)
        ((sampleRows.reverse ++ sampleRows).map fun row => [row]) := by
  have hcheckpoint {c : CleanupCheckpointV1} (h : .checkpoint c ∈ sampleRecords) :
      c = sampleCheckpoint 0 := by
    simpa [sampleRecords] using h
  have hsingle (rows : List Row) : (rows.map fun row => [row]).flatten = rows := by
    rw [← List.flatMap_def, List.flatMap_singleton']
  have hdelivers : Delivers [sampleRows] sampleRows := by
    intro row
    rw [List.flatten_singleton]
  have hdelivers' :
      Delivers ((sampleRows.reverse ++ sampleRows).map fun row => [row]) sampleRows := by
    intro row
    rw [hsingle, List.mem_append, List.mem_reverse, or_self]
  refine (applyBatches_order_independent_iff sampleVerifier_signsOneLeave ?_).mpr ?_ _ _ hdelivers
    hdelivers'
  · intro row hrow row' hrow' decoded c hdecode hc stamp hstamp
    have hdecoded := mem_of_decode_rows sampleRecords_valid hrow hdecode
    obtain rfl := hcheckpoint (mem_of_decode_rows sampleRecords_valid hrow' hc)
    have hall : sampleRecords.all fun t => t.stamp.all fun stamp =>
      (sampleCheckpoint 0).watermarkMillis.1 < stamp.1 := by decide +kernel
    have hbelow := List.all_eq_true.mp hall decoded hdecoded
    rw [Option.mem_def.mp hstamp] at hbelow
    exact of_decide_eq_true hbelow
  · rintro c c' ⟨⟨row, hrow, hc⟩, -⟩ ⟨⟨row', hrow', hc'⟩, -⟩
    rw [hcheckpoint (mem_of_decode_rows sampleRecords_valid hrow hc),
      hcheckpoint (mem_of_decode_rows sampleRecords_valid hrow' hc')]

def tiedRow (issuer : Fin 2) : Row :=
  (TombstoneRow.checkpoint (sampleCheckpoint issuer.castSucc)).row

lemma decode_tiedRow (issuer : Fin 2) : decodeTombstoneRow sampleVerifier (tiedRow issuer) =
    some (.checkpoint (sampleCheckpoint issuer.castSucc)) :=
  decodeTombstoneRow_row (by revert issuer; decide +kernel)

/-- **A tie is settled by arrival**: two replicas without bindings receive the same two
checkpoint rows, of one watermark and different issuers, in the two orders and store
different ones. -/
theorem tied_checkpoints_diverge :
    SignsOneLeave sampleVerifier ∧ StampedAbove sampleVerifier [tiedRow 0, tiedRow 1] ∧
      Delivers [[tiedRow 0, tiedRow 1]] [tiedRow 0, tiedRow 1] ∧
      Delivers [[tiedRow 1, tiedRow 0]] [tiedRow 0, tiedRow 1] ∧
      (applyBatches sampleVerifier (.bound fun _ => none) [[tiedRow 0, tiedRow 1]]).checkpoint =
        some (tiedRow 0).content ∧
      (applyBatches sampleVerifier (.bound fun _ => none) [[tiedRow 1, tiedRow 0]]).checkpoint =
        some (tiedRow 1).content ∧
      (tiedRow 0).content ≠ (tiedRow 1).content := by
  have hdecodes (i j : Fin 2) : ∀ row ∈ [tiedRow i, tiedRow j], ∃ k : Fin 2,
      decodeTombstoneRow sampleVerifier row = some (.checkpoint (sampleCheckpoint k.castSucc)) := by
    intro row hrow
    rcases List.mem_pair.mp hrow with rfl | rfl
    · exact ⟨i, decode_tiedRow i⟩
    · exact ⟨j, decode_tiedRow j⟩
  have hstamped (i j : Fin 2) : StampedAbove sampleVerifier [tiedRow i, tiedRow j] := by
    intro row hrow row' _ decoded c hdecode _ stamp hstamp
    obtain ⟨k, hk⟩ := hdecodes i j row hrow
    obtain rfl := Option.some.inj (hk.symm.trans hdecode)
    cases hstamp
  have hhighest (i j : Fin 2) :
      Highest sampleVerifier [tiedRow i, tiedRow j] (sampleCheckpoint i.castSucc) := by
    refine ⟨⟨tiedRow i, List.mem_cons_self, decode_tiedRow i⟩, fun row hrow c hc => ?_⟩
    obtain ⟨k, hk⟩ := hdecodes i j row hrow
    have hc : sampleCheckpoint k.castSucc = c :=
      TombstoneRow.checkpoint.inj (Option.some.inj (hk.symm.trans hc))
    rw [← hc]
    exact le_rfl
  have hstored (i j : Fin 2) :
      (applyBatches sampleVerifier (.bound fun _ => none) [[tiedRow i, tiedRow j]]).checkpoint =
        some (tiedRow i).content := by
    have hflat : [[tiedRow i, tiedRow j]].flatten = [tiedRow i, tiedRow j] := rfl
    rw [applyBatches_settled sampleVerifier_signsOneLeave (hflat ▸ hstamped i j), hflat,
      settledStore_checkpoint]
    exact settled_highest_first (decode_tiedRow i) (hhighest i j)
  refine ⟨sampleVerifier_signsOneLeave, hstamped 0 1, fun row => Iff.rfl, fun row => ?_,
    hstored 0 1, hstored 1 0, ?_⟩
  · rw [List.flatten_singleton, List.mem_pair, List.mem_pair, or_comm]
  · intro hcontent
    have h0 : checkpointFormat.decode (tiedRow 0).content = .ok (sampleCheckpoint 0) :=
      reads_of_decode (decode_tiedRow 0)
    have h1 : checkpointFormat.decode (tiedRow 1).content = .ok (sampleCheckpoint 1) :=
      reads_of_decode (decode_tiedRow 1)
    rw [hcontent, h1] at h0
    exact absurd (Except.ok.inj h0) (by decide +kernel)

end Radiata.Membership
