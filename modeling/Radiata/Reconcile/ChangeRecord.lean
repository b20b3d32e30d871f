import Radiata.Reconcile.Backlog
import Radiata.Lib.Intervals

/-!
# The record of changed digests

Every change of an engine's rows marks a digest, and the next local-change drive hints at
what was marked.  Between the two the marks are kept as coalesced bounds, or given up for
the whole digest space when more bounds would be needed than a message names.

The bounds are the list of separated intervals of `Lib.Intervals` over words: `touches`
says, with saturating arithmetic, that no word lies strictly between.  Marks are counted
per operation (`Engine.marks`) and compared with the record along a run, since the last
local-change drive.
-/

namespace Radiata.Reconcile

open Lib

/-! ## Bounds of words -/

lemma gap_iff {a b : UInt64} : Gap a b ↔ a.toNat + 1 < b.toNat := by
  constructor
  · rintro ⟨g, hlow, hhigh⟩
    rw [UInt64.lt_iff_toNat_lt] at hlow hhigh
    omega
  · intro h
    have hb := b.toNat_lt
    have hsucc : (a + 1).toNat = a.toNat + 1 := by
      rw [UInt64.toNat_add, UInt64.toNat_one, Nat.mod_eq_of_lt (by omega)]
    exact ⟨a + 1, UInt64.lt_iff_toNat_lt.mpr (by omega), UInt64.lt_iff_toNat_lt.mpr (by omega)⟩

lemma touches_iff {digest : UInt64} {bound : UInt64 × UInt64} :
    touches digest bound = true ↔ Touches digest bound := by
  have hdigest := digest.toNat_lt
  have hstart := bound.1.toNat_lt
  have hmax : maxWord.toNat = 2 ^ 64 - 1 := by decide
  have habove : (if digest = maxWord then maxWord else digest + 1).toNat =
      min (digest.toNat + 1) (2 ^ 64 - 1) := by
    split_ifs with h
    · rw [h, hmax]
      decide
    · have hne : digest.toNat ≠ 2 ^ 64 - 1 :=
        fun heq => h (UInt64.toNat_inj.mp (heq.trans hmax.symm))
      rw [UInt64.toNat_add, UInt64.toNat_one, Nat.mod_eq_of_lt (by omega)]
      omega
  have hbelow : (if digest = 0 then 0 else digest - 1).toNat = digest.toNat - 1 := by
    split_ifs with h
    · rw [h]
      rfl
    · have hne : digest.toNat ≠ 0 := fun heq => h (UInt64.toNat_inj.mp heq)
      have hone : (1 : UInt64) ≤ digest :=
        UInt64.le_iff_toNat_le.mpr (by rw [UInt64.toNat_one]; omega)
      rw [UInt64.toNat_sub_of_le _ _ hone, UInt64.toNat_one]
  simp only [touches, Touches, gap_iff, Bool.and_eq_true, decide_eq_true_eq, ge_iff_le,
    UInt64.le_iff_toNat_le, habove, hbelow]
  omega

instance : Std.Total BoundLe := ⟨fun a b => by
  simp only [BoundLe, UInt64.lt_iff_toNat_lt, UInt64.le_iff_toNat_le, ← UInt64.toNat_inj]
  omega⟩

instance : IsTrans _ BoundLe := ⟨fun a b c => by
  simp only [BoundLe, UInt64.lt_iff_toNat_lt, UInt64.le_iff_toNat_le, ← UInt64.toNat_inj]
  omega⟩

section Coalesce

variable {digest : UInt64} {bounds : List (UInt64 × UInt64)}

lemma coalesce_perm (digest : UInt64) (bounds : List (UInt64 × UInt64)) :
    (coalesce digest bounds).Perm
      (bounds.filter (fun bound => !touches digest bound) ++
        [hull digest (bounds.filter (touches digest))]) :=
  List.perm_insertionSort _ _

lemma coalesce_sorted (digest : UInt64) (bounds : List (UInt64 × UInt64)) :
    (coalesce digest bounds).Pairwise fun a b => a.1 ≤ b.1 := by
  refine (List.pairwise_insertionSort BoundLe _).imp ?_
  rintro a b (hlt | ⟨heq, -⟩)
  · exact hlt.le
  · exact heq.le

lemma coalesce_separated (h : Separated bounds) : Separated (coalesce digest bounds) :=
  h.insert (fun _ _ => touches_iff) (coalesce_perm digest bounds) (coalesce_sorted digest bounds)

lemma covers_coalesce {d : UInt64} :
    Covers (coalesce digest bounds) d ↔ d = digest ∨ Covers bounds d :=
  covers_insert (fun _ _ => touches_iff) (coalesce_perm digest bounds)

end Coalesce

-- the ends of the space are not neighbours; a digest between two bounds joins them
example : coalesce maxWord [(0, 0)] = [(0, 0), (maxWord, maxWord)] := by decide
example : coalesce 5 [(3, 4), (6, 9), (11, 12)] = [(3, 9), (11, 12)] := by decide

/-! ## The record -/

def noteDigest (dirty : Option (List (UInt64 × UInt64))) (digest : UInt64) :
    Option (List (UInt64 × UInt64)) :=
  match dirty with
  | none => none
  | some bounds =>
    if (coalesce digest bounds).length > maxRangesPerMessage then none
    else some (coalesce digest bounds)

/-- What the record says of the marked digests: nothing, or exactly which they are, in
separated bounds that fit a message. -/
inductive Records (marked : UInt64 → Prop) : Option (List (UInt64 × UInt64)) → Prop where
  | whole : Records marked none
  | exact {bounds : List (UInt64 × UInt64)} (hlength : bounds.length ≤ maxRangesPerMessage)
      (hseparated : Separated bounds) (hcovers : ∀ d, Covers bounds d ↔ marked d) :
      Records marked (some bounds)

variable {marked : UInt64 → Prop}

namespace Records

variable {marked' : UInt64 → Prop} {dirty : Option (List (UInt64 × UInt64))}

lemma congr (h : Records marked dirty) (hmarked : ∀ d, marked d ↔ marked' d) :
    Records marked' dirty := by
  cases h with
  | whole => exact .whole
  | exact hlength hseparated hcovers =>
    exact .exact hlength hseparated fun d => (hcovers d).trans (hmarked d)

lemma nil (h : ∀ d, ¬ marked d) : Records marked (some []) :=
  .exact (Nat.zero_le _) separated_nil fun d => by simp [Covers, h d]

/-- **One more mark.** -/
theorem note (h : Records marked dirty) (digest : UInt64) :
    Records (fun d => d = digest ∨ marked d) (noteDigest dirty digest) := by
  cases h with
  | whole => exact .whole
  | exact hlength hseparated hcovers =>
    rw [noteDigest]
    split_ifs with hlong
    · exact .whole
    · exact .exact (not_lt.mp hlong) (coalesce_separated hseparated) fun d => by
        rw [covers_coalesce, hcovers]

lemma notes (h : Records marked dirty) (ds : List UInt64) :
    Records (fun d => d ∈ ds ∨ marked d) (ds.foldl noteDigest dirty) := by
  induction ds generalizing marked dirty with
  | nil => exact h.congr fun d => by simp
  | cons digest ds ih =>
    refine (ih (h.note digest)).congr fun d => ?_
    rw [List.mem_cons]
    tauto

end Records

/-! ## What an operation marks -/

def storeMarks (index : LiveIndex Row) (digest : UInt64) : List UInt64 :=
  match index.get digest with
  | none => [digest]
  | some _ => []

def rowsMarks (sha256 : Hash) : LiveIndex Row → List Row → List UInt64
  | _, [] => []
  | index, row :: rows =>
    match itemDigest sha256 row.key row.content with
    | .error _ => []
    | .ok digest => storeMarks index digest ++ rowsMarks sha256 (index.insert digest row).2 rows

def removeMarks (sha256 : Hash) (index : LiveIndex Row) (key content : List UInt8) :
    List UInt64 :=
  match itemDigest sha256 key content with
  | .error _ => []
  | .ok digest =>
    match index.get digest with
    | some _ => [digest]
    | none => []

def Op.isLocalChange : Op → Bool
  | .drive .localChange | .drive .localChangeEager => true
  | _ => false

namespace Engine

variable {sha256 : Hash} {e e' e'' : Engine} {ds ds' : List UInt64}

def marks (sha256 : Hash) (e : Engine) : Op → List UInt64
  | .insertRow key content | .insertRowQuiet key content =>
    if !rowFitsMessage key.length content.length then []
    else rowsMarks sha256 e.index [⟨key, content⟩]
  | .removeRow key content => removeMarks sha256 e.index key content
  | .drive (.message m) => if m.lane ≠ e.lane then [] else rowsMarks sha256 e.index m.carried
  | .drive _ => []

structure Marks (e e' : Engine) (ds : List UInt64) : Prop where
  dirty : e'.dirty = ds.foldl noteDigest e.dirty
  others : ∀ d, d ∉ ds → (d ∈ e'.index.digests ↔ d ∈ e.index.digests)

namespace Marks

lemma of_eq (hdirty : e'.dirty = e.dirty) (hindex : e'.index = e.index) : Marks e e' [] :=
  ⟨hdirty, fun d _ => by rw [hindex]⟩

lemma trans (h : Marks e e' ds) (h' : Marks e' e'' ds') : Marks e e'' (ds ++ ds') := by
  refine ⟨by rw [h'.dirty, h.dirty, List.foldl_append], fun d hd => ?_⟩
  rw [List.mem_append, not_or] at hd
  exact (h'.others d hd.2).trans (h.others d hd.1)

lemma keep (h : Marks e e' ds) (hdirty : e''.dirty = e'.dirty) (hindex : e''.index = e'.index) :
    Marks e e'' ds := by
  simpa using h.trans (of_eq hdirty hindex)

end Marks

lemma markDirty_dirty (e : Engine) (digest : UInt64) :
    (e.markDirty digest).dirty = noteDigest e.dirty digest := by
  unfold markDirty noteDigest
  cases hdirty : e.dirty with
  | none => exact hdirty
  | some bounds =>
    dsimp only
    split_ifs <;> rfl

lemma noteEager_dirty (e : Engine) (digest : UInt64) (rowBytes : ℕ) :
    (e.noteEager digest rowBytes).dirty = e.dirty := by
  unfold noteEager
  split_ifs <;> rfl

lemma store_marks (e : Engine) (digest : UInt64) (row : Row) (eager : Bool) :
    Marks e (e.store digest row eager) (storeMarks e.index digest) := by
  have hothers (d : UInt64) (hd : d ≠ digest) :
      d ∈ (e.store digest row eager).index.digests ↔ d ∈ e.index.digests := by
    rw [store_index, LiveIndex.digests_insert, Finset.mem_insert, or_iff_right hd]
  cases hget : e.index.get digest with
  | some previous =>
    have heq : (e.store digest row eager).dirty = e.dirty := by
      unfold store
      dsimp only
      rw [LiveIndex.insert_fst, hget]
    refine ⟨by rw [storeMarks, hget]; exact heq, fun d _ => ?_⟩
    rcases eq_or_ne d digest with rfl | hne
    · refine iff_of_true ?_
        (LiveIndex.mem_digests.mpr ⟨previous, LiveIndex.get_eq_some_iff.mp hget⟩)
      rw [store_index, LiveIndex.digests_insert]
      exact Finset.mem_insert_self _ _
    · exact hothers d hne
  | none =>
    rw [storeMarks, hget]
    refine ⟨?_, fun d hd => hothers d (by simpa using hd)⟩
    unfold store
    dsimp only
    rw [LiveIndex.insert_fst, hget]
    cases eager with
    | false => exact markDirty_dirty _ digest
    | true => exact (noteEager_dirty _ digest _).trans (markDirty_dirty _ digest)

section

variable (sha256)

section

variable (e)

lemma applyRows_marks (rows : List Row) :
    Marks e (e.applyRows sha256 rows).2 (rowsMarks sha256 e.index rows) := by
  induction rows generalizing e with
  | nil => exact .of_eq rfl rfl
  | cons row rows ih =>
    rw [applyRows, rowsMarks]
    cases itemDigest sha256 row.key row.content with
    | error err => exact .of_eq rfl rfl
    | ok digest =>
      have hrest := ih (e.store digest row false)
      rw [store_index] at hrest
      exact (e.store_marks digest row false).trans hrest

lemma insertRowInner_marks (key content : List UInt8) (eager : Bool) :
    Marks e (e.insertRowInner sha256 key content eager).2
      (if !rowFitsMessage key.length content.length then []
        else rowsMarks sha256 e.index [⟨key, content⟩]) := by
  unfold insertRowInner
  split_ifs
  · exact .of_eq rfl rfl
  · simp only [rowsMarks]
    cases itemDigest sha256 key content with
    | error err => exact .of_eq rfl rfl
    | ok digest =>
      simp only [List.append_nil]
      exact e.store_marks digest ⟨key, content⟩ eager

lemma removeRow_marks (key content : List UInt8) :
    Marks e (e.removeRow sha256 key content).2 (removeMarks sha256 e.index key content) := by
  unfold removeRow removeMarks
  cases itemDigest sha256 key content with
  | error err => exact .of_eq rfl rfl
  | ok digest =>
    have hothers (d : UInt64) (h : d ≠ digest ∨ e.index.get digest = none) :
        d ∈ (e.index.remove digest).2.digests ↔ d ∈ e.index.digests := by
      simp only [LiveIndex.mem_digests, LiveIndex.mem_iter_remove]
      rcases h with hne | hnone
      · simp [hne]
      · have habsent := LiveIndex.get_eq_none_iff.mp hnone
        rw [LiveIndex.mem_digests] at habsent
        refine exists_congr fun value => and_iff_left_of_imp fun hmem heq => habsent ⟨value, ?_⟩
        exact heq ▸ hmem
    simp only [LiveIndex.remove_fst]
    cases hget : e.index.get digest with
    | none => exact ⟨rfl, fun d _ => hothers d (.inr hget)⟩
    | some removed =>
      refine ⟨markDirty_dirty _ digest, fun d hd => ?_⟩
      show d ∈ (markDirty _ digest).index.digests ↔ _
      rw [markDirty_index]
      exact hothers d (.inl (by simpa using hd))

lemma applyMessage_marks (m : Message) : Marks e (e.applyMessage sha256 m).2
      (if m.lane ≠ e.lane then [] else rowsMarks sha256 e.index m.carried) := by
  by_cases hlane : m.lane = e.lane
  · rw [if_neg (not_not.mpr hlane), applyMessage_of_lane sha256 hlane]
    have hanswered {e₁ e₂ : Engine} {ds : List UInt64} (hmarks : Marks e e₁ ds)
        (h : Moves .any e₁ e₂) : Marks e e₂ ds := hmarks.keep h.extends.dirty h.extends.index
    have hheard : Marks e e.hear [] := .of_eq rfl rfl
    have hheld : Grounds.any.Holds e.hear := Grounds.any_holds _
    cases m with
    | root lane count xor =>
      have hlearned : Marks e { e.hear with peerRoot := some ⟨count, xor⟩ } [] := .of_eq rfl rfl
      exact hanswered hlearned (receiveRoot_moves hheld trivial)
    | offer lane ranges => exact hanswered hheard (receiveOffer_moves hheld fun _ _ => trivial)
    | need lane bounds => exact hanswered hheard (receiveNeed_moves fun _ _ => trivial)
    | done lane token => exact hanswered hheard (receiveDone_moves hheld)
    | hint lane ranges rows =>
      have hrows := e.applyRows_marks sha256 rows
      rw [dispatch]
      cases happly : e.applyRows sha256 rows with
      | mk result e₁ =>
        rw [happly] at hrows
        cases result with
        | error err => exact hrows
        | ok _ => exact hanswered hrows (receiveHintRanges_moves trivial)
    | rows lane rows =>
      have hrows := hheard.trans (e.hear.applyRows_marks sha256 rows)
      rw [dispatch]
      cases happly : e.hear.applyRows sha256 rows with
      | mk result e₁ =>
        rw [happly] at hrows
        cases result with
        | error err => exact hrows
        | ok _ => exact hrows
  · rw [if_pos hlane]
    unfold applyMessage
    rw [if_pos hlane]
    exact .of_eq rfl rfl

/-- **What an operation does to the record**, apart from a local-change drive. -/
theorem step_marks {op : Op} (h : op.isLocalChange = false) :
    Marks e (e.step sha256 op) (e.marks sha256 op) := by
  have hopened : Marks e e.opened [] := by
    unfold opened expireNeeds
    split_ifs <;> exact .of_eq rfl rfl
  have hlane : e.opened.lane = e.lane := by
    unfold opened expireNeeds
    split_ifs <;> rfl
  have hdrive {input : Drive} {ds : List UInt64}
      (haccept : Marks e (e.opened.accept sha256 input).2 ds) :
      Marks e (e.drive sha256 input).2 ds := by
    refine drive_keeps (P := fun e' => Marks e e' ds) haccept fun e' out generated hkept => ?_
    have hsettle := (settle_moves generated (Grounds.any_holds (e'.drainBacklog out).2)).extends
    exact hkept.keep hsettle.dirty hsettle.index
  cases op with
  | insertRow key content => exact e.insertRowInner_marks sha256 key content true
  | insertRowQuiet key content => exact e.insertRowInner_marks sha256 key content false
  | removeRow key content => exact e.removeRow_marks sha256 key content
  | drive input =>
    refine hdrive ?_
    cases input with
    | localChange | localChangeEager => cases h
    | message m =>
      have hmessage := hopened.trans (e.opened.applyMessage_marks sha256 m)
      rwa [hlane, opened_index] at hmessage
    | rootExchange =>
      obtain ⟨e₁, hprepared, hmoves⟩ := accept_moves sha256
        (Grounds.any_entitles e.opened .rootExchange)
      cases hprepared with
      | rootExchange => exact hopened.keep hmoves.extends.dirty hmoves.extends.index
    | drain => exact hopened

lemma step_localChange {op : Op} (h : op.isLocalChange = true) :
    (e.step sha256 op).dirty = some [] := by
  have hdrive {input : Drive} (haccept : (e.opened.accept sha256 input).2.dirty = some []) :
      (e.drive sha256 input).2.dirty = some [] := by
    refine drive_keeps (P := fun e' => e'.dirty = some []) haccept fun e' out generated hkept => ?_
    exact (settle_moves generated
      (Grounds.any_holds (e'.drainBacklog out).2)).extends.dirty.trans hkept
  cases op with
  | insertRow | insertRowQuiet | removeRow => cases h
  | drive input =>
    refine hdrive ?_
    cases input with
    | message | rootExchange | drain => cases h
    | localChange => exact congrArg dirty (e.opened.driveLocalChange_eq false)
    | localChangeEager => exact congrArg dirty (e.opened.driveLocalChange_eq true)

end

end

/-! ## Runs -/

def MarkedSince (sha256 : Hash) (lane : LaneId) (ops : List Op) (digest : UInt64) : Prop :=
  Since (step sha256) Op.isLocalChange (fun e op => digest ∈ e.marks sha256 op) (new lane) ops

def ChangedSince (sha256 : Hash) (lane : LaneId) (ops : List Op) (digest : UInt64) : Prop :=
  Since (step sha256) Op.isLocalChange
    (fun e op => ¬ (digest ∈ (e.step sha256 op).index.digests ↔ digest ∈ e.index.digests))
    (new lane) ops

lemma markedSince_of_changedSince {lane : LaneId} {ops : List Op} {digest : UInt64}
    (h : ChangedSince sha256 lane ops digest) : MarkedSince sha256 lane ops digest := by
  refine h.imp fun e op hquiet hchanged => ?_
  by_contra hunmarked
  exact hchanged ((e.step_marks sha256 hquiet).others digest hunmarked)

/-- **The record along a run.** -/
theorem run_records (sha256 : Hash) (lane : LaneId) (ops : List Op) :
    Records (MarkedSince sha256 lane ops) (run sha256 lane ops).dirty := by
  induction ops using List.reverseRecOn with
  | nil => exact .nil fun d => not_since_nil
  | append_singleton ops op ih =>
    rw [run_append]
    have hconcat (d : UInt64) : MarkedSince sha256 lane (ops ++ [op]) d ↔
        op.isLocalChange = false ∧
          (d ∈ (run sha256 lane ops).marks sha256 op ∨ MarkedSince sha256 lane ops d) :=
      since_concat
    cases hlocal : op.isLocalChange with
    | true =>
      rw [step_localChange sha256 _ hlocal]
      refine .nil fun d hd => ?_
      rw [hconcat, hlocal] at hd
      cases hd.1
    | false =>
      rw [(step_marks sha256 _ hlocal).dirty]
      refine (ih.notes _).congr fun d => ?_
      rw [hconcat, and_iff_right hlocal]

/-! ## The hint -/

lemma announcement_pushed (sha256 : Hash) (e : Engine) {input : Drive}
    (h : (Op.drive input).isLocalChange = true) :
    e.announcement input ⊆ e.pushes sha256 (.drive input) := by
  have hannounced (eager : Bool)
      (heq : e.opened.accept sha256 input = (.ok (e.opened.driveLocalChange eager).1,
        (e.opened.driveLocalChange eager).2))
      (hinput : (if eager then Drive.localChangeEager else .localChange) = input) :
      e.announcement input ⊆ e.queued sha256 input := by
    have haccepted : (e.opened.driveLocalChange eager).2.backlog =
        e.opened.backlog ++ e.announcement input := by
      rw [driveLocalChange_eq, hinput, opened_announcement]
    obtain ⟨settled, hsettled⟩ := (settle_moves (e.opened.driveLocalChange eager).1
      (Grounds.any_holds ((e.opened.driveLocalChange eager).2.drainBacklog
        (e.backlog.take messageBudgetPerDrive)).2)).extends.backlog
    rw [queued_of_ok haccepted hsettled.symm heq]
    exact List.subset_append_left _ _
  rw [pushes_drive]
  cases input with
  | message | rootExchange | drain => cases h
  | localChange => exact hannounced false rfl rfl
  | localChangeEager => exact hannounced true rfl rfl

variable {input : Drive} {lane : LaneId}

lemma ranges_of_hint_pushed {ranges : List RangeFingerprint} {rows : List Row}
    (h : .hint lane ranges rows ∈ e.pushes sha256 (.drive input)) : ranges = e.changedRanges := by
  rw [pushes_drive] at h
  rcases drive_emits sha256 e input h with hann | hemitted
  · rcases mem_announcement hann with ⟨-, heq⟩ | ⟨-, heq⟩ | ⟨-, heq⟩
    · cases heq
    · cases heq
      rfl
    · cases heq
      rfl
  · cases hemitted

structure Hints (sha256 : Hash) (e : Engine) (input : Drive) (changed : UInt64 → Prop) : Prop where
  hinted : (∃ d, changed d) →
    ∃ ranges rows, .hint e.lane ranges rows ∈ e.pushes sha256 (.drive input)
  covers : ∀ lane ranges rows, .hint lane ranges rows ∈ e.pushes sha256 (.drive input) →
    ∀ d, changed d → ∃ range ∈ ranges, range.start ≤ d ∧ d ≤ range.stop
  aggregates : ∀ lane ranges rows, .hint lane ranges rows ∈ e.pushes sha256 (.drive input) →
    ∀ range ∈ ranges, (⟨range.count, range.xor⟩ : Fingerprint) =
      .ofSet (e.index.digestsIn range.start range.stop)

lemma changedRanges_cover (h : Records marked e.dirty) {d : UInt64} (hd : marked d) :
    ∃ range ∈ e.changedRanges, range.start ≤ d ∧ d ≤ range.stop := by
  have hbound : Covers (e.dirty.getD [(0, maxWord)]) d := by
    cases hdirty : e.dirty with
    | none => exact ⟨(0, maxWord), List.mem_singleton_self _, UInt64.zero_le, le_maxWord d⟩
    | some bounds =>
      rw [hdirty] at h
      cases h with
      | exact _ _ hcovers => exact (hcovers d).mpr hd
  obtain ⟨bound, hmem, hlow, hhigh⟩ := hbound
  exact ⟨e.claim bound, List.mem_map_of_mem hmem, hlow, hhigh⟩

lemma hints_of_records (h : Records marked e.dirty)
    (hinput : (Op.drive input).isLocalChange = true) : Hints sha256 e input marked := by
  refine ⟨?_, fun lane ranges rows hhint d hd => ?_, fun lane ranges rows hhint range hrange => ?_⟩
  · rintro ⟨d, hd⟩
    obtain ⟨range, hrange, -⟩ := changedRanges_cover h hd
    have hsome : e.changedRanges.isEmpty = false := by
      cases hranges : e.changedRanges with
      | nil => exact absurd (hranges ▸ hrange) List.not_mem_nil
      | cons _ _ => rfl
    have hsubset := e.announcement_pushed sha256 hinput
    cases input with
    | message | rootExchange | drain => cases hinput
    | localChange | localChangeEager =>
      rw [announcement, if_neg (by simp [hsome])] at hsubset
      exact ⟨_, _, hsubset (List.mem_singleton_self _)⟩
  · rw [ranges_of_hint_pushed hhint]
    exact changedRanges_cover h hd
  · rw [ranges_of_hint_pushed hhint, changedRanges] at hrange
    obtain ⟨bound, -, rfl⟩ := List.mem_map.mp hrange
    exact e.rangeFingerprint_eq bound.1 bound.2

/-- **The record covers every change.**  After any operations the record is the whole space
or exactly the digests marked since the last local-change drive, in at most as many separated
bounds as a message names; and the hint of the next local-change drive covers every digest
marked or changed since then, with the aggregates of the rows as they are at the drive. -/
theorem changes_recorded (sha256 : Hash) (lane : LaneId) (ops : List Op) :
    Records (MarkedSince sha256 lane ops) (run sha256 lane ops).dirty ∧
      ∀ input, (Op.drive input).isLocalChange = true →
        Hints sha256 (run sha256 lane ops) input fun d =>
          MarkedSince sha256 lane ops d ∨ ChangedSince sha256 lane ops d := by
  have hrecords := run_records sha256 lane ops
  refine ⟨hrecords, fun input hinput => hints_of_records (hrecords.congr fun d => ?_) hinput⟩
  exact ⟨.inl, fun h => h.elim id markedSince_of_changedSince⟩

end Engine

end Radiata.Reconcile
