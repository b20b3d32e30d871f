import Radiata.Membership.DescriptorRegister

/-!
# The descriptors lane against the sequential apply

The lane reads its rows, lets the descriptors of each node contest, and applies the winners in
pages.  Storing the descriptors of the batch one by one leaves the same rows, except where a
register is started low: there the contest has already dropped the first revision that would
have let the higher one in, and the lane stores neither.

The rows it refuses are everything but the rows it installed.  They are not simply the rows whose
content is not stored afterwards: a row that is stored already is refused, and so is the second
copy of an installed row, while an installed row in another spelling is not stored as it came.
-/

namespace Radiata.Membership

open Lib Identity Reconcile Storage
open Resource (pageMaxItems)
open scoped List
open Prod (fst snd)

namespace DescriptorFormat

variable (format : DescriptorFormat) (bound : NodeId → Bool) (rows : DescriptorRows)
  (batch : List Row)

/-! ## The batch -/

def identify (row : Row) : Option format.Descriptor :=
  decodeIdentified format.decode format.rowKey row

def decoded : List (Row × format.Descriptor) :=
  batch.filterMap fun row => (format.identify row).map (row, ·)

def descriptors : List format.Descriptor := (format.decoded batch).map Prod.snd

def standings : List (Row × format.Descriptor) × List (Row × format.Descriptor) :=
  contest (fun e => format.rowKey e.2) (fun e => format.rank e.2) (format.decoded batch)

def winners : List (Row × format.Descriptor) := (format.standings batch).1

def installs : List (Row × format.Descriptor) :=
  (format.winners batch).filter fun e => ¬ format.SkippedBy bound rows e.2

variable {format bound rows batch}

lemma identify_eq_some {row : Row} {d : format.Descriptor} :
    format.identify row = some d ↔ format.decode row.content = .ok d ∧ row.key =
      format.rowKey d := by
  unfold identify decodeIdentified
  cases format.decode row.content with
  | error e => simp
  | ok record =>
    dsimp only
    split_ifs with hkey
    · simp only [Option.some.injEq, Except.ok.injEq]
      exact ⟨fun h => ⟨h, h ▸ hkey⟩, fun h => h.1⟩
    · simp only [Except.ok.injEq, false_iff, not_and]
      exact fun h => h ▸ hkey

variable {e : Row × format.Descriptor}

lemma mem_decoded : e ∈ format.decoded batch ↔ e.1 ∈ batch ∧ format.identify e.1 = some e.2 := by
  rw [decoded, List.mem_filterMap]
  constructor
  · rintro ⟨row, hrow, he⟩
    obtain ⟨d, hd, rfl⟩ := Option.map_eq_some_iff.mp he
    exact ⟨hrow, hd⟩
  · rintro ⟨hrow, hd⟩
    exact ⟨e.1, hrow, by rw [hd]; rfl⟩

lemma key_of_mem_decoded (h : e ∈ format.decoded batch) :
    e.1.key = format.rowKey e.2 := (identify_eq_some.mp (mem_decoded.mp h).2).2

lemma standings_contested : Contested (fun e => format.rowKey e.2) (fun e => format.rank e.2)
    (format.decoded batch) (format.standings batch) := contest_contested _

lemma mem_decoded_of_winner (h : e ∈ format.winners batch) : e ∈ format.decoded batch :=
  standings_contested.perm.subset (List.mem_append_left _ h)

lemma winners_distinct : (((format.winners batch).map snd).map format.rowKey).Nodup := by
  rw [List.map_map]
  exact standings_contested.distinct

lemma mem_installs : e ∈ format.installs bound rows batch ↔
    e ∈ format.winners batch ∧ ¬ format.SkippedBy bound rows e.2 := by
  rw [installs, List.mem_filter, decide_eq_true_eq]

lemma installs_inj {e' : Row × format.Descriptor} (h : e ∈ format.installs bound rows batch)
    (h' : e' ∈ format.installs bound rows batch) (hkey : e.1.key = e'.1.key) : e = e' := by
  have hwin := (mem_installs.mp h).1
  have hwin' := (mem_installs.mp h').1
  rw [key_of_mem_decoded (mem_decoded_of_winner hwin),
    key_of_mem_decoded (mem_decoded_of_winner hwin')] at hkey
  exact List.inj_on_of_nodup_map standings_contested.distinct hwin hwin' hkey

lemma foldl_contend (l : List (Row × format.Descriptor)) :
    l.foldl format.contend ([], []) =
      ((contest (fun e => format.rowKey e.2) (fun e => format.rank e.2) l).1,
        (contest (fun e => format.rowKey e.2) (fun e => format.rank e.2) l).2.map fst) := by
  induction l using List.reverseRecOn with
  | nil => rfl
  | append_singleton l e ih =>
    rw [contest, List.foldl_append, List.foldl_append, ih, ← contest]
    generalize contest (fun e => format.rowKey e.2) (fun e => format.rank e.2) l = standings
    obtain ⟨standing, lost⟩ := standings
    simp only [List.foldl_cons, List.foldl_nil, DescriptorFormat.contend, Lib.contend, rowKey,
      idBytes_injective.eq_iff]
    cases standing.find? fun b => format.node b.2 = format.node e.2 with
    | none => rfl
    | some other =>
      have hrank : format.rank e.2 < format.rank other.2 ↔
          ¬ format.revision e.2 ≤ format.revision other.2 := not_le.symm
      by_cases hle : format.revision e.2 ≤ format.revision other.2
      · simp [hle, hrank]
      · simp [hle, hrank]

/-! ## What the lane answers -/

lemma undecoded_append_decoded : batch.filter (fun row => (format.identify row).isNone) ++
    (format.decoded batch).map fst ~ batch := by
  have hdecoded : (format.decoded batch).map fst =
      batch.filter fun row => !(format.identify row).isNone := by
    induction batch with
    | nil => rfl
    | cons row rest ih =>
      rw [decoded] at ih ⊢
      cases hrow : format.identify row with
      | none => simp [hrow, ih]
      | some d => simp [hrow, ih]
  rw [hdecoded]
  exact List.filter_append_perm _ batch

lemma winners_filter_skipped :
    ((format.winners batch).filter fun e =>
      (format.skippedNodes bound rows ((format.winners batch).map snd)).any
        fun node => idBytes node = e.1.key) =
      (format.winners batch).filter fun e => format.SkippedBy bound rows e.2 := by
  refine List.filter_congr fun e he => ?_
  have hkey := key_of_mem_decoded (mem_decoded_of_winner he)
  rw [Bool.eq_iff_iff, List.any_eq_true, decide_eq_true_eq]
  constructor
  · rintro ⟨node, hnode, hsame⟩
    obtain ⟨d, hd, rfl⟩ := List.mem_map.mp hnode
    obtain ⟨hmem, hskipped⟩ := List.mem_filter.mp hd
    obtain ⟨other, hother, rfl⟩ := List.mem_map.mp hmem
    have hrow : format.rowKey other.2 = format.rowKey e.2 := (of_decide_eq_true hsame).trans hkey
    rw [← List.inj_on_of_nodup_map standings_contested.distinct hother he hrow]
    exact of_decide_eq_true hskipped
  · intro hskipped
    refine ⟨format.node e.2, List.mem_map.mpr ⟨e.2, List.mem_filter.mpr ⟨?_, ?_⟩, rfl⟩, ?_⟩
    · exact List.mem_map_of_mem he
    · exact decide_eq_true hskipped
    · exact decide_eq_true hkey.symm

variable (format bound rows batch) in
def pages : Commit DescriptorRows (List (List NodeId)) :=
  commitEach (fun rows page => format.applyBatch bound rows page .committed .committed) rows
    (chunks pageMaxItems ((format.winners batch).map Prod.snd))

variable (format bound rows batch) in
lemma applyRows_eq : format.applyRows bound rows batch =
    ⟨(format.pages bound rows batch).store, (format.pages bound rows batch).noted,
      (format.pages bound rows batch).answer.map fun skipped =>
        batch.filter (fun row => (format.identify row).isNone) ++
          (format.standings batch).2.map fst ++
          ((format.winners batch).filter fun e =>
            skipped.flatten.any fun node => idBytes node = e.1.key).map fst⟩ := by
  have hfold := foldl_contend (format.decoded batch)
  unfold applyRows
  dsimp only
  rw [show (batch.filterMap fun row => Option.map (fun x => (row, x))
      (decodeIdentified format.decode (fun d => idBytes (format.node d)) row)) =
        format.decoded batch
    from rfl, hfold]
  rfl

lemma chunks_winners : (chunks pageMaxItems ((format.winners batch).map snd)).flatten =
    (format.winners batch).map snd := flatten_chunks (by decide) _

lemma applyRows_of_writable
    (h : format.Writable bound rows ((format.winners batch).map snd)) :
    ∃ refused, (format.applyRows bound rows batch).answer = .ok refused ∧
      (format.applyRows bound rows batch).store =
        format.storeAll bound rows ((format.winners batch).map snd) ∧
      refused ++ (format.installs bound rows batch).map fst ~ batch := by
  obtain ⟨skipped, hanswer, hstore, hskipped⟩ :
      ∃ skipped, (format.pages bound rows batch).answer = .ok skipped ∧
        (format.pages bound rows batch).store =
          format.storeAll bound rows
            (chunks pageMaxItems ((format.winners batch).map snd)).flatten ∧
        skipped.flatten = format.skippedNodes bound rows
          (chunks pageMaxItems ((format.winners batch).map snd)).flatten :=
    commitEach_of_writable (by rw [chunks_winners]; exact winners_distinct)
      (by rw [chunks_winners]; exact h)
  rw [chunks_winners] at hstore hskipped
  rw [applyRows_eq, hanswer]
  refine ⟨_, rfl, hstore, ?_⟩
  dsimp only
  rw [hskipped, winners_filter_skipped]
  have hwinners : ((format.winners batch).filter fun e => format.SkippedBy bound rows e.2).map
      fst ++
      (format.installs bound rows batch).map fst ~ (format.winners batch).map fst := by
    rw [← List.map_append]
    refine List.Perm.map _ (List.Perm.trans ?_ (List.filter_append_perm
      (fun e => decide (format.SkippedBy bound rows e.2)) (format.winners batch)))
    simp [installs]
  have hdecoded : (format.standings batch).2.map fst ++ (format.winners batch).map fst ~
      (format.decoded batch).map fst := by
    rw [← List.map_append]
    exact (List.perm_append_comm.trans standings_contested.perm).map _
  rw [List.append_assoc, List.append_assoc]
  exact ((hwinners.append_left _).trans hdecoded |>.append_left _).trans undecoded_append_decoded

lemma applyRows_of_not_writable
    (h : ¬ format.Writable bound rows ((format.winners batch).map snd)) :
    ∃ e, (format.applyRows bound rows batch).answer = .error e := by
  obtain ⟨e, he⟩ : ∃ e, (format.pages bound rows batch).answer = .error e :=
    commitEach_of_not_writable (by rw [chunks_winners]; exact winners_distinct)
      (by rw [chunks_winners]; exact h)
  exact ⟨e, by rw [applyRows_eq, he]; rfl⟩

/-! ## The rows after the batch -/

lemma get?_after_of_install (h : e ∈ format.installs bound rows batch) {bytes : List UInt8}
    (hbytes : format.encode e.2 = .ok bytes) :
    (format.storeAll bound rows ((format.winners batch).map snd)).get? (format.rowKey e.2) =
      some bytes := by
  obtain ⟨hwinner, htakes⟩ := mem_installs.mp h
  rw [get?_storeAll, keyedBy_of_mem winners_distinct (List.mem_map_of_mem hwinner)]
  exact offer_of_encode htakes hbytes

lemma get?_after_of_no_install {key : List UInt8}
    (h : ∀ e ∈ format.installs bound rows batch, format.rowKey e.2 ≠ key) :
    (format.storeAll bound rows ((format.winners batch).map snd)).get? key = rows.get? key := by
  by_cases hkey : key ∈ ((format.winners batch).map snd).map format.rowKey
  · obtain ⟨w, hw, rfl⟩ := List.mem_map.mp hkey
    obtain ⟨e, he, rfl⟩ := List.mem_map.mp hw
    rw [get?_storeAll, keyedBy_of_mem winners_distinct hw]
    have hskipped : format.SkippedBy bound rows e.2 := by
      by_contra hnot
      exact h e (mem_installs.mpr ⟨he, hnot⟩) rfl
    exact offer_of_skips hskipped
  · exact get?_storeAll_of_notMem hkey

lemma champion_of_winner {e : Row × format.Descriptor} (h : e ∈ format.winners batch) :
    format.champion (keyedBy format.rowKey (format.rowKey e.2) (format.descriptors batch)) =
      some e.2 := by
  have hsettle := (standings_contested.mem_winners e).mp h
  have hmap : keyedBy format.rowKey (format.rowKey e.2) (format.descriptors batch) =
      (keyedBy (fun e => format.rowKey e.2) (format.rowKey e.2) (format.decoded batch)).map snd :=
    List.filter_map
  rw [champion, hmap, settle_map]
  exact congrArg (Option.map snd) hsettle

lemma exists_winner {key : List UInt8}
    (h : keyedBy format.rowKey key (format.descriptors batch) ≠ []) :
    ∃ e ∈ format.winners batch, format.rowKey e.2 = key := by
  obtain ⟨d, hd⟩ := List.exists_mem_of_ne_nil _ h
  obtain ⟨hmem, rfl⟩ := mem_keyedBy.mp hd
  obtain ⟨e, he, rfl⟩ := List.mem_map.mp hmem
  have hkeyed : e ∈ keyedBy (fun e => format.rowKey e.2) (format.rowKey e.2)
      (format.decoded batch) :=
    mem_keyedBy.mpr ⟨he, rfl⟩
  cases hsettle : settle (fun e => format.rank e.2)
      (keyedBy (fun e => format.rowKey e.2) (format.rowKey e.2) (format.decoded batch)) with
  | none => exact absurd hkeyed (settle_eq_none.mp hsettle ▸ List.not_mem_nil)
  | some w =>
    have hkey := (mem_keyedBy.mp (settle_spec hsettle).1).2
    exact ⟨w, (standings_contested.mem_winners w).mpr (hkey.symm ▸ hsettle), hkey⟩

end DescriptorFormat

namespace LawfulFormat

open DescriptorFormat

variable {format : LawfulFormat} {bound : NodeId → Bool} {rows : DescriptorRows} {batch : List Row}

/-- **The lane stores what the sequential apply stores**, unless a register is started low. -/
theorem storeAll_winners_iff
    (h : format.Writable bound rows ((format.winners batch).map snd)) :
    format.storeAll bound rows ((format.winners batch).map snd) =
        format.storeAll bound rows (format.descriptors batch) ↔
      ∀ key, ¬ StartsLow format bound (rows.get? key)
        (keyedBy format.rowKey key (format.descriptors batch)) := by
  have hkey : ∀ key,
      (format.storeAll bound rows ((format.winners batch).map snd)).get? key =
          (format.storeAll bound rows (format.descriptors batch)).get? key ↔
        ¬ StartsLow format bound (rows.get? key)
          (keyedBy format.rowKey key (format.descriptors batch)) := by
    intro key
    by_cases hnil : keyedBy format.rowKey key (format.descriptors batch) = []
    · have hnone : ∀ e ∈ format.installs bound rows batch, format.rowKey e.2 ≠ key := by
        intro e he heq
        have hmem := mem_decoded_of_winner (mem_installs.mp he).1
        have hkeyed : e.2 ∈ keyedBy format.rowKey key (format.descriptors batch) :=
          mem_keyedBy.mpr ⟨List.mem_map_of_mem hmem, heq⟩
        rw [hnil] at hkeyed
        cases hkeyed
      rw [get?_after_of_no_install hnone, get?_storeAll, hnil]
      refine iff_of_true rfl ?_
      rintro ⟨-, ⟨d, hd, -⟩, -⟩
      cases hd
    · obtain ⟨e, he, rfl⟩ := exists_winner hnil
      rw [get?_storeAll, get?_storeAll, keyedBy_of_mem winners_distinct (List.mem_map_of_mem he)]
      have hnode : ∀ d ∈ keyedBy format.rowKey (format.rowKey e.2) (format.descriptors batch),
          format.node d = format.node e.2 := fun d hd => idBytes_injective (mem_keyedBy.mp hd).2
      have hiff := offers_eq_offer_iff hnode (champion_of_winner he)
        (h e.2 (List.mem_map_of_mem he))
      rw [← hiff, eq_comm]
      rfl
  constructor
  · exact fun heq key => (hkey key).mp (by rw [heq])
  · exact fun hall => OrdMap.ext_get? fun key => (hkey key).mpr (hall key)

/-- The lane does what the sequential apply does, and refuses exactly the rows that are not
stored afterwards. -/
def LaneIsSequential (format : LawfulFormat) (bound : NodeId → Bool) (rows : DescriptorRows)
    (batch : List Row) : Prop :=
  ∃ refused, (format.applyRows bound rows batch).answer = .ok refused ∧
    (format.applyRows bound rows batch).store =
      format.storeAll bound rows (format.descriptors batch) ∧
    refused ~ batch.filter fun row =>
      (format.applyRows bound rows batch).store.get? row.key ≠ some row.content

structure LaneCondition (format : LawfulFormat) (bound : NodeId → Bool) (rows : DescriptorRows)
    (batch : List Row) : Prop where
  starts : ∀ key, ¬ StartsLow format bound (rows.get? key)
    (keyedBy format.rowKey key (format.descriptors batch))
  written : ∀ e ∈ format.installs bound rows batch, format.encode e.2 = .ok e.1.content
  once : ∀ e ∈ format.installs bound rows batch, batch.count e.1 = 1
  replaced : ∀ row ∈ batch, rows.get? row.key = some row.content →
    ∃ e ∈ format.installs bound rows batch, e.1.key = row.key

lemma writable_of_written
    (h : ∀ e ∈ format.installs bound rows batch, format.encode e.2 = .ok e.1.content) :
    format.Writable bound rows ((format.winners batch).map snd) := by
  intro d hd htakes
  obtain ⟨e, he, rfl⟩ := List.mem_map.mp hd
  exact ⟨_, h e (mem_installs.mpr ⟨he, htakes⟩)⟩

/-- Refusing everything but the installed rows is refusing what is not stored exactly when the
installed rows are what is stored. -/
theorem refused_perm_iff {refused installed : List Row} {stored : Row → Prop} [DecidablePred stored]
    (h : refused ++ installed ~ batch) :
    (refused ~ batch.filter fun row => ¬ stored row) ↔ installed ~ batch.filter fun row =>
      stored row := by
  have hsplit : (batch.filter fun row => ¬ stored row) ++
      batch.filter (fun row => stored row) ~ batch := by
    refine List.perm_append_comm.trans ?_
    simpa using List.filter_append_perm (fun row => decide (stored row)) batch
  have hboth := h.trans hsplit.symm
  constructor
  · intro hrefused
    exact (List.perm_append_left_iff _).mp ((hrefused.symm.append_right _).trans hboth)
  · intro hinstalled
    exact (List.perm_append_right_iff _).mp ((hinstalled.symm.append_left _).trans hboth)

lemma count_filter_stored {stored : Row → Prop} [DecidablePred stored] {row : Row}
    (h : stored row) : (batch.filter fun row => stored row).count row = batch.count row :=
  List.count_filter (decide_eq_true h)

lemma installed_nodup : ((format.installs bound rows batch).map fst).Nodup := by
  have hnodup : (format.installs bound rows batch).Nodup :=
    (List.Nodup.of_map _ standings_contested.distinct).filter _
  refine hnodup.map_on fun e he e' he' heq => ?_
  exact installs_inj he he' (congrArg Row.key heq)

lemma stored_after_iff
    (h : ∀ e ∈ format.installs bound rows batch, format.encode e.2 = .ok e.1.content) {row : Row} :
    (format.storeAll bound rows ((format.winners batch).map snd)).get? row.key =
        some row.content ↔
      row ∈ (format.installs bound rows batch).map fst ∨
        (∀ e ∈ format.installs bound rows batch, e.1.key ≠ row.key) ∧
          rows.get? row.key = some row.content := by
  by_cases hinstall : ∃ e ∈ format.installs bound rows batch, e.1.key = row.key
  · obtain ⟨e, he, hkey⟩ := hinstall
    have hrow := key_of_mem_decoded (mem_decoded_of_winner (mem_installs.mp he).1)
    rw [← hkey, hrow, get?_after_of_install he (h e he), Option.some_inj, ← hrow]
    constructor
    · intro hcontent
      obtain ⟨key, content⟩ := row
      obtain ⟨⟨key', content'⟩, d⟩ := e
      obtain rfl : key' = key := hkey
      obtain rfl : content' = content := hcontent
      exact .inl (List.mem_map_of_mem he)
    · rintro (hmem | ⟨hnone, -⟩)
      · obtain ⟨other, hother, rfl⟩ := List.mem_map.mp hmem
        rw [installs_inj he hother hkey]
      · exact absurd rfl (hnone e he)
  · have hnone : ∀ e ∈ format.installs bound rows batch, e.1.key ≠ row.key :=
      fun e he hkey => hinstall ⟨e, he, hkey⟩
    have hother : ∀ e ∈ format.installs bound rows batch, format.rowKey e.2 ≠ row.key :=
      fun e he hkey =>
        hnone e he ((key_of_mem_decoded (mem_decoded_of_winner (mem_installs.mp he).1)).trans hkey)
    rw [get?_after_of_no_install hother]
    constructor
    · exact fun hstored => .inr ⟨hnone, hstored⟩
    · rintro (hmem | ⟨-, hstored⟩)
      · obtain ⟨e, he, rfl⟩ := List.mem_map.mp hmem
        exact absurd rfl (hnone e he)
      · exact hstored

/-- **The lane equals the sequential apply and refuses exactly what is not stored** if and only if
no register is started low, every installed row is stored as it came and came once, and no row
that is refused was stored before. -/
theorem lane_is_sequential_iff :
    LaneIsSequential format bound rows batch ↔ LaneCondition format bound rows batch := by
  constructor
  · rintro ⟨refused, hanswer, hstore, hperm⟩
    have hwritable : format.Writable bound rows ((format.winners batch).map Prod.snd) := by
      by_contra hnot
      obtain ⟨e, he⟩ := applyRows_of_not_writable hnot
      rw [hanswer] at he
      cases he
    obtain ⟨refused', hanswer', hafter, hsplit⟩ := applyRows_of_writable hwritable
    obtain rfl : refused = refused' := Except.ok.inj (hanswer.symm.trans hanswer')
    rw [hafter] at hstore hperm
    have hinstalled := (refused_perm_iff hsplit).mp hperm
    have hwritten : ∀ e ∈ format.installs bound rows batch, format.encode e.2 =
        .ok e.1.content := by
      intro e he
      obtain ⟨hwinner, htakes⟩ := mem_installs.mp he
      obtain ⟨bytes, hbytes⟩ := hwritable e.2 (List.mem_map_of_mem hwinner) htakes
      have hmem := hinstalled.subset (List.mem_map_of_mem he)
      have hcontent := of_decide_eq_true (List.mem_filter.mp hmem).2
      rw [key_of_mem_decoded (mem_decoded_of_winner hwinner),
        get?_after_of_install he hbytes] at hcontent
      rw [hbytes, Option.some.inj hcontent]
    refine ⟨(storeAll_winners_iff hwritable).mp hstore, hwritten, fun e he => ?_,
      fun row hrow hstored => ?_⟩
    · have hmem : e.1 ∈ (format.installs bound rows batch).map Prod.fst := List.mem_map_of_mem he
      have hcount := hinstalled.count_eq e.1
      rw [List.count_eq_one_of_mem installed_nodup hmem,
        count_filter_stored ((stored_after_iff hwritten).mpr (.inl hmem))] at hcount
      exact hcount.symm
    · by_contra hnone
      have hnone : ∀ e ∈ format.installs bound rows batch, e.1.key ≠ row.key :=
        fun e he hkey => hnone ⟨e, he, hkey⟩
      have hafterwards := (stored_after_iff hwritten).mpr (.inr ⟨hnone, hstored⟩)
      have hmem := hinstalled.symm.subset (List.mem_filter.mpr ⟨hrow, decide_eq_true hafterwards⟩)
      obtain ⟨e, he, rfl⟩ := List.mem_map.mp hmem
      exact hnone e he rfl
  · intro h
    have hwritable := writable_of_written h.written
    obtain ⟨refused, hanswer, hafter, hsplit⟩ := applyRows_of_writable hwritable
    refine ⟨refused, hanswer, hafter.trans ((storeAll_winners_iff hwritable).mpr h.starts), ?_⟩
    rw [hafter]
    refine (refused_perm_iff hsplit).mpr (List.perm_iff_count.mpr fun row => ?_)
    by_cases hmem : row ∈ (format.installs bound rows batch).map Prod.fst
    · have hstored := (stored_after_iff h.written).mpr (.inl hmem)
      rw [List.count_eq_one_of_mem installed_nodup hmem, count_filter_stored hstored]
      obtain ⟨e, he, rfl⟩ := List.mem_map.mp hmem
      exact (h.once e he).symm
    · rw [List.count_eq_zero_of_not_mem hmem, eq_comm, List.count_eq_zero]
      intro hfilter
      obtain ⟨hrow, hstored⟩ := List.mem_filter.mp hfilter
      rcases (stored_after_iff h.written).mp (of_decide_eq_true hstored) with hin | ⟨hnone, hbefore⟩
      · exact hmem hin
      · obtain ⟨e, he, hkey⟩ := h.replaced row hrow hbefore
        exact hnone e he hkey

end LawfulFormat

/-! ## A register started low -/

def plainEndpoints : EndpointSyntax := ⟨Text, .ok, id, fun _ => rfl⟩

def sampleDescriptor (revision : UInt64) : NodeDescriptorV1 plainEndpoints :=
  ⟨⟨"node-000000000000000000000".toList, by decide +kernel⟩, ⟨List.replicate 32 0, by decide⟩, [],
    .new, revision⟩

def sampleDescriptorRow (revision : UInt64) : Row :=
  ⟨idBytes (sampleDescriptor revision).node, (sampleDescriptor revision).encode.toOption.getD []⟩

/-- Revisions one and two of a node that is not bound and has no row: one by one they leave
revision two, and the lane stores nothing.  A row that is stored is refused when it comes again. -/
theorem contest_drops_first_revision :
    ((nodeDescriptorFormat plainEndpoints).applyRows (fun _ => false) .empty
        [sampleDescriptorRow 1, sampleDescriptorRow 2]).store.entries = [] ∧
      ((nodeDescriptorFormat plainEndpoints).storeAll (fun _ => false) .empty
        [sampleDescriptor 1, sampleDescriptor 2]).get? (sampleDescriptorRow 2).key =
          some (sampleDescriptorRow 2).content ∧
      ((nodeDescriptorFormat plainEndpoints).storeAll (fun _ => false) .empty
        [sampleDescriptor 1]).get? (sampleDescriptorRow 1).key =
          some (sampleDescriptorRow 1).content ∧
      ((nodeDescriptorFormat plainEndpoints).applyRows (fun _ => false)
        ((nodeDescriptorFormat plainEndpoints).storeAll (fun _ => false) .empty
          [sampleDescriptor 1])
        [sampleDescriptorRow 1]).answer.toOption = some [sampleDescriptorRow 1] := by
  refine ⟨?_, ?_, ?_, ?_⟩
  · decide +kernel
  · decide +kernel
  · decide +kernel
  · decide +kernel

end Radiata.Membership
