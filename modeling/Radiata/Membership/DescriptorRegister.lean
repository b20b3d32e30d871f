import Radiata.Lib.Contest
import Radiata.Lib.Hex
import Radiata.Membership.DescriptorRecord

/-!
# What a sequence of descriptors does to a register

One row at a time: a descriptor is skipped or takes the row over.  A sequence of offers comes to
the same as offering the first of the highest revision alone, except that a row without a
readable descriptor can take a first revision from a node it has no binding for, and then the
higher ones, which on their own it would not take.

A store offers its descriptor to its row, and pages of different nodes come to storing their
descriptors one by one.
-/

namespace Radiata.Membership

open Lib Identity Reconcile Storage Resource
open scoped List

lemma idBytes_injective : Function.Injective idBytes := fun _ _ h =>
  CanonicalId.text_injective (String.ofList_injective (Cbor.utf8_injective h))

variable {row : Option (List UInt8)}

namespace DescriptorFormat

/-! ## One row -/

section Row

variable (format : DescriptorFormat) (bound : NodeId → Bool)

def readRow (row : Option (List UInt8)) : Option format.Descriptor :=
  row.bind fun bytes => (format.decode bytes).toOption

def Skips (row : Option (List UInt8)) (descriptor : format.Descriptor) : Prop :=
  match format.readRow row with
  | some existing => format.revision descriptor ≤ format.revision existing
  | none =>
    format.revision descriptor = 0 ∨
      1 < format.revision descriptor ∧ bound (format.node descriptor) = false

instance (row : Option (List UInt8)) (descriptor : format.Descriptor) :
    Decidable (format.Skips bound row descriptor) := by
  unfold Skips
  cases format.readRow row <;> infer_instance

def Encodes (descriptor : format.Descriptor) : Prop := ∃ bytes, format.encode descriptor = .ok bytes

def offer (row : Option (List UInt8)) (descriptor : format.Descriptor) : Option (List UInt8) :=
  if format.Skips bound row descriptor then row
  else
    match format.encode descriptor with
    | .ok bytes => some bytes
    | .error _ => row

def offers (row : Option (List UInt8)) (descriptors : List format.Descriptor) :
    Option (List UInt8) :=
  descriptors.foldl (format.offer bound) row

def rank (descriptor : format.Descriptor) : UInt64ᵒᵈ :=
  OrderDual.toDual (format.revision descriptor)

def champion (descriptors : List format.Descriptor) : Option format.Descriptor :=
  settle format.rank descriptors

variable {format bound} {d w : format.Descriptor} {descriptors : List format.Descriptor}

lemma offers_append (row : Option (List UInt8)) (l l' : List format.Descriptor) :
    format.offers bound row (l ++ l') = format.offers bound (format.offers bound row l) l' :=
  List.foldl_append ..

lemma offers_cons (row : Option (List UInt8)) (d : format.Descriptor) (l : List format.Descriptor) :
    format.offers bound row (d :: l) = format.offers bound (format.offer bound row d) l := rfl

lemma offer_of_skips (h : format.Skips bound row d) : format.offer bound row d = row := if_pos h

lemma offer_of_encode (h : ¬ format.Skips bound row d) {bytes : List UInt8}
    (hencode : format.encode d = .ok bytes) : format.offer bound row d = some bytes := by
  rw [offer, if_neg h, hencode]

lemma offer_of_not_encodes (h : ¬ format.Encodes d) : format.offer bound row d = row := by
  unfold offer
  split_ifs with hskips
  · rfl
  · cases hencode : format.encode d with
    | ok bytes => exact absurd ⟨bytes, hencode⟩ h
    | error e => rfl

lemma skips_of_some {existing : format.Descriptor} (h : format.readRow row = some existing) :
    format.Skips bound row d ↔ format.revision d ≤ format.revision existing := by
  rw [Skips, h]

lemma skips_of_none (h : format.readRow row = none) : format.Skips bound row d ↔
    format.revision d = 0 ∨ 1 < format.revision d ∧ bound (format.node d) = false := by
  rw [Skips, h]

lemma offer_cases (bound : NodeId → Bool) (row : Option (List UInt8)) (d : format.Descriptor) :
    format.offer bound row d = row ∨ ¬ format.Skips bound row d ∧
      ∃ bytes, format.encode d = .ok bytes ∧ format.offer bound row d = some bytes := by
  by_cases hskips : format.Skips bound row d
  · exact .inl (offer_of_skips hskips)
  · by_cases hencodes : format.Encodes d
    · obtain ⟨bytes, hbytes⟩ := hencodes
      exact .inr ⟨hskips, bytes, hbytes, offer_of_encode hskips hbytes⟩
    · exact .inl (offer_of_not_encodes hencodes)

lemma offers_of_forall (h : ∀ d ∈ descriptors, format.Encodes d → format.Skips bound row d) :
    format.offers bound row descriptors = row := by
  induction descriptors with
  | nil => rfl
  | cons d rest ih =>
    have hhead : format.offer bound row d = row := by
      by_cases hencodes : format.Encodes d
      · exact offer_of_skips (h d List.mem_cons_self hencodes)
      · exact offer_of_not_encodes hencodes
    rw [offers_cons, hhead]
    exact ih fun x hx => h x (List.mem_cons_of_mem d hx)

lemma champion_le (h : format.champion descriptors = some w) (hd : d ∈ descriptors) :
    format.revision d ≤ format.revision w := (settle_spec h).2 d hd

lemma champion_mem (h : format.champion descriptors = some w) : w ∈ descriptors :=
  (settle_spec h).1

end Row

end DescriptorFormat

namespace LawfulFormat

open DescriptorFormat

variable {format : LawfulFormat} {bound : NodeId → Bool} {d w : format.Descriptor}
  {descriptors : List format.Descriptor}

lemma readRow_of_encode {bytes : List UInt8} (h : format.encode d = .ok bytes) :
    format.readRow (some bytes) = some d := by
  rw [DescriptorFormat.readRow, Option.bind_some, format.decode_encode h]
  rfl

section

variable (bound)

lemma offers_cases (row : Option (List UInt8)) (descriptors : List format.Descriptor) :
    format.offers bound row descriptors = row ∨
      ∃ d ∈ descriptors, format.readRow (format.offers bound row descriptors) = some d := by
  induction descriptors using List.reverseRecOn with
  | nil => exact .inl rfl
  | append_singleton descriptors d ih =>
    rw [offers_append, offers_cons]
    rcases offer_cases bound (format.offers bound row descriptors) d with
      hsame | ⟨-, bytes, hbytes, hnew⟩
    · rw [hsame]
      exact ih.imp_right fun ⟨x, hx, hread⟩ => ⟨x, List.mem_append_left _ hx, hread⟩
    · rw [hnew]
      exact .inr ⟨d, by simp, readRow_of_encode hbytes⟩

lemma offers_readable (descriptors : List format.Descriptor) (h : format.readRow row ≠ none) :
    format.readRow (format.offers bound row descriptors) ≠ none := by
  rcases offers_cases bound row descriptors with hsame | ⟨d, -, hd⟩
  · rwa [hsame]
  · rw [hd]
    exact Option.some_ne_none d

lemma offers_readable_of_first (row : Option (List UInt8)) (hd : d ∈ descriptors)
    (hone : format.revision d = 1) (hencodes : format.Encodes d) :
    format.readRow (format.offers bound row descriptors) ≠ none := by
  obtain ⟨before, after, rfl⟩ := List.append_of_mem hd
  rw [offers_append, offers_cons]
  refine offers_readable bound after ?_
  by_cases hread : format.readRow (format.offers bound row before) = none
  · obtain ⟨bytes, hbytes⟩ := hencodes
    have htakes : ¬ format.Skips bound (format.offers bound row before) d := by
      rw [skips_of_none hread, hone]
      simp
    rw [offer_of_encode htakes hbytes, readRow_of_encode hbytes]
    exact Option.some_ne_none d
  · exact offers_readable bound [d] hread

end

lemma offers_of_champion (h : format.champion descriptors = some w)
    (htakes : ¬ format.Skips bound row w) {bytes : List UInt8}
    (hbytes : format.encode w = .ok bytes) :
    format.offers bound row descriptors = some bytes := by
  obtain ⟨before, after, rfl, hbefore, hafter⟩ := settle_split h
  -- whatever came before is lower, so the champion is still taken
  have hstill : ¬ format.Skips bound (format.offers bound row before) w := by
    rcases offers_cases bound row before with hsame | ⟨d, hd, hread⟩
    · rwa [hsame]
    · rw [skips_of_some hread, not_le]
      exact hbefore d hd
  have hskip : ∀ d ∈ after, format.Encodes d → format.Skips bound (some bytes) d := fun d hd _ =>
    (skips_of_some (readRow_of_encode hbytes)).mpr (hafter d hd)
  have hstep : format.offer bound (format.offers bound row before) w = some bytes :=
    offer_of_encode hstill hbytes
  rw [offers_append, offers_cons, hstep]
  exact offers_of_forall hskip

/-- The row has no readable descriptor, its node is not bound, and some descriptor starts the
register that the champion alone could not start. -/
def StartsLow (format : LawfulFormat) (bound : NodeId → Bool) (row : Option (List UInt8))
    (descriptors : List format.Descriptor) : Prop :=
  format.readRow row = none ∧ (∃ d ∈ descriptors, format.revision d = 1 ∧ format.Encodes d) ∧
    ∃ d ∈ descriptors, 1 < format.revision d ∧ bound (format.node d) = false

/-- **A sequence of offers and its champion alone leave the same row**, unless the register is
started low. -/
theorem offers_eq_offer_iff {node : NodeId} (hnode : ∀ d ∈ descriptors, format.node d = node)
    (h : format.champion descriptors = some w)
    (hencodes : ¬ format.Skips bound row w → format.Encodes w) :
    format.offers bound row descriptors = format.offer bound row w ↔
      ¬ StartsLow format bound row descriptors := by
  by_cases hskips : format.Skips bound row w
  · rw [offer_of_skips hskips]
    constructor
    · rintro hsame ⟨hread, ⟨d, hd, hone, bytes, hbytes⟩, -⟩
      have hreadable := offers_readable_of_first bound row hd hone ⟨bytes, hbytes⟩
      rw [hsame] at hreadable
      exact hreadable hread
    · intro hlow
      refine offers_of_forall fun d hd hencodes => ?_
      have hle := champion_le h hd
      cases hread : format.readRow row with
      | some existing =>
        rw [skips_of_some hread] at hskips ⊢
        exact hle.trans hskips
      | none =>
        rw [skips_of_none hread] at hskips ⊢
        rcases hskips with hzero | ⟨hhigh, hunbound⟩
        · rw [hzero] at hle
          exact .inl (le_antisymm hle UInt64.zero_le)
        · by_contra htakes
          rw [not_or, not_and] at htakes
          have hbound : bound (format.node d) = false := by
            rw [hnode d hd, ← hnode w (champion_mem h)]
            exact hunbound
          have hone : format.revision d = 1 := by
            have hnot : ¬ 1 < format.revision d := fun hlt => htakes.2 hlt hbound
            have hpos := htakes.1
            simp only [UInt64.lt_iff_toNat_lt, ← UInt64.toNat_inj, UInt64.toNat_one,
              UInt64.toNat_zero] at hnot hpos ⊢
            omega
          exact hlow ⟨hread, ⟨d, hd, hone, hencodes⟩, w, champion_mem h, hhigh, hunbound⟩
  · obtain ⟨bytes, hbytes⟩ := hencodes hskips
    rw [offers_of_champion h hskips hbytes, offer_of_encode hskips hbytes]
    refine iff_of_true rfl ?_
    rintro ⟨hread, -, d, hd, hhigh, hunbound⟩
    refine hskips ((skips_of_none hread).mpr (.inr ⟨hhigh.trans_le (champion_le h hd), ?_⟩))
    rw [hnode w (champion_mem h), ← hnode d hd]
    exact hunbound

end LawfulFormat

/-! ## Stores and pages -/

namespace DescriptorFormat

variable (format : DescriptorFormat) (bound : NodeId → Bool)

def rowKey (descriptor : format.Descriptor) : List UInt8 := idBytes (format.node descriptor)

def storeAll (rows : DescriptorRows) (descriptors : List format.Descriptor) : DescriptorRows :=
  descriptors.foldl (fun rows d => (format.store bound rows d .committed).store) rows

def SkippedBy (rows : DescriptorRows) (descriptor : format.Descriptor) : Prop :=
  format.Skips bound (rows.get? (format.rowKey descriptor)) descriptor

instance (rows : DescriptorRows) (descriptor : format.Descriptor) :
    Decidable (format.SkippedBy bound rows descriptor) := by
  unfold SkippedBy
  infer_instance

def Writable (rows : DescriptorRows) (descriptors : List format.Descriptor) : Prop :=
  ∀ d ∈ descriptors, ¬ format.SkippedBy bound rows d → format.Encodes d

variable {format bound} {rows : DescriptorRows} {d : format.Descriptor}
  {descriptors : List format.Descriptor}

lemma skipReason_eq_none : format.skipReason bound rows d = none ↔
    ¬ format.SkippedBy bound rows d := by
  rw [SkippedBy, Skips, skipReason]
  change (match format.readRow (rows.get? (format.rowKey d)) with
    | some existing =>
      if format.revision d ≤ format.revision existing then some "node descriptor revision" else none
    | none =>
      if format.revision d = 0 ∨ 1 < format.revision d ∧ bound (format.node d) = false then
        some "node descriptor revision"
      else none) = none ↔ _
  cases format.readRow (rows.get? (format.rowKey d)) <;> dsimp only <;> split_ifs <;> simp_all

lemma store_of_skipped (h : format.SkippedBy bound rows d) :
    (format.store bound rows d .committed).store = rows := by
  unfold store
  cases hskip : format.skipReason bound rows d with
  | some reason => rfl
  | none => exact absurd h (skipReason_eq_none.mp hskip)

lemma store_of_encode (h : ¬ format.SkippedBy bound rows d) {bytes : List UInt8}
    (hencode : format.encode d = .ok bytes) :
    (format.store bound rows d .committed).store = rows.insert (format.rowKey d) bytes := by
  unfold store
  rw [skipReason_eq_none.mpr h, hencode]
  rfl

lemma store_of_not_encodes (h : ¬ format.Encodes d) :
    (format.store bound rows d .committed).store = rows := by
  unfold store
  cases format.skipReason bound rows d with
  | some reason => rfl
  | none =>
    cases hencode : format.encode d with
    | error e => rfl
    | ok bytes => exact absurd ⟨bytes, hencode⟩ h

lemma get?_store (key : List UInt8) : (format.store bound rows d .committed).store.get? key =
    if key = format.rowKey d then format.offer bound (rows.get? key) d else rows.get? key := by
  by_cases hskipped : format.SkippedBy bound rows d
  · rw [store_of_skipped hskipped]
    split_ifs with hkey
    · rw [hkey]
      exact (offer_of_skips hskipped).symm
    · rfl
  · by_cases hencodes : format.Encodes d
    · obtain ⟨bytes, hbytes⟩ := hencodes
      rw [store_of_encode hskipped hbytes]
      split_ifs with hkey
      · rw [hkey, offer_of_encode hskipped hbytes]
        exact OrdMap.get?_insert_self
      · exact OrdMap.get?_insert_of_ne hkey
    · rw [store_of_not_encodes hencodes, offer_of_not_encodes hencodes, ite_self]

lemma get?_storeAll (key : List UInt8) : (format.storeAll bound rows descriptors).get? key =
    format.offers bound (rows.get? key) (keyedBy format.rowKey key descriptors) := by
  induction descriptors using List.reverseRecOn with
  | nil => rfl
  | append_singleton descriptors d ih =>
    rw [storeAll, List.foldl_append, List.foldl_cons, List.foldl_nil, get?_store]
    split_ifs with hkey
    · rw [hkey, keyedBy_concat_self, offers_append, ← hkey]
      exact congrArg (format.offer bound · d) ih
    · rw [keyedBy_concat_of_ne descriptors fun h => hkey h.symm]
      exact ih

lemma storeAll_append (l l' : List format.Descriptor) :
    format.storeAll bound rows (l ++ l') = format.storeAll bound (format.storeAll bound rows l)
      l' :=
  List.foldl_append ..

lemma skippedBy_congr (bound : NodeId → Bool) {rows' : DescriptorRows}
    (h : rows'.get? (format.rowKey d) = rows.get? (format.rowKey d)) :
    format.SkippedBy bound rows' d ↔ format.SkippedBy bound rows d := by
  rw [SkippedBy, SkippedBy, h]

lemma get?_storeAll_of_notMem {key : List UInt8} (h : key ∉ descriptors.map format.rowKey) :
    (format.storeAll bound rows descriptors).get? key = rows.get? key := by
  have hnone : keyedBy format.rowKey key descriptors = [] :=
    List.filter_eq_nil_iff.mpr fun d hd hkey =>
      h (List.mem_map.mpr ⟨d, hd, of_decide_eq_true hkey⟩)
  rw [get?_storeAll, hnone]
  rfl

variable (format bound) in
def skippedNodes (rows : DescriptorRows) (descriptors : List format.Descriptor) : List NodeId :=
  (descriptors.filter fun d => format.SkippedBy bound rows d).map format.node

lemma writable_congr (bound : NodeId → Bool) {rows' : DescriptorRows}
    (h : ∀ d ∈ descriptors, rows'.get? (format.rowKey d) = rows.get? (format.rowKey d)) :
    (format.Writable bound rows' descriptors ↔ format.Writable bound rows descriptors) ∧
      format.skippedNodes bound rows' descriptors = format.skippedNodes bound rows descriptors := by
  constructor
  · exact forall₂_congr fun d hd => imp_congr_left (not_congr (skippedBy_congr bound (h d hd)))
  · unfold skippedNodes
    rw [List.filter_congr fun d hd => decide_eq_decide.mpr (skippedBy_congr bound (h d hd))]

lemma skippedNodes_cons_of_skipped (h : format.SkippedBy bound rows d) :
    format.skippedNodes bound rows (d :: descriptors) =
      format.node d :: format.skippedNodes bound rows descriptors := by
  simp [skippedNodes, h]

lemma skippedNodes_cons_of_not (h : ¬ format.SkippedBy bound rows d) :
    format.skippedNodes bound rows (d :: descriptors) =
      format.skippedNodes bound rows descriptors := by
  simp [skippedNodes, h]

lemma writable_cons : format.Writable bound rows (d :: descriptors) ↔
    (¬ format.SkippedBy bound rows d → format.Encodes d) ∧ format.Writable bound rows descriptors :=
  List.forall_mem_cons

/-- A page decides on the rows before it; its descriptors have different keys, so that storing
them one by one decides the same.  `current` are the rows after the puts of earlier ones. -/
theorem pagePuts_of_writable (hdistinct : (descriptors.map format.rowKey).Nodup)
    (h : format.Writable bound rows descriptors) {current : DescriptorRows}
    (hcurrent : ∀ d ∈ descriptors, current.get? (format.rowKey d) = rows.get? (format.rowKey d)) :
    ∃ puts, format.pagePuts bound rows descriptors =
      .ok (puts, format.skippedNodes bound rows descriptors) ∧
      puts.foldl (fun rows put => rows.insert (idBytes put.1) put.2) current =
        format.storeAll bound current descriptors := by
  induction descriptors generalizing current with
  | nil => exact ⟨[], rfl, rfl⟩
  | cons d rest ih =>
    obtain ⟨hhead, hrest⟩ := writable_cons.mp h
    obtain ⟨hfresh, hdistinct⟩ := List.nodup_cons.mp hdistinct
    have hsame := skippedBy_congr bound (hcurrent d List.mem_cons_self)
    have htail := fun x hx => hcurrent x (List.mem_cons_of_mem d hx)
    by_cases hskipped : format.SkippedBy bound rows d
    · obtain ⟨puts, hputs, hstore⟩ := ih hdistinct hrest htail
      obtain ⟨reason, hreason⟩ := Option.ne_none_iff_exists'.mp
        (mt skipReason_eq_none.mp (not_not.mpr hskipped))
      refine ⟨puts, ?_, ?_⟩
      · rw [pagePuts, hreason, hputs, skippedNodes_cons_of_skipped hskipped]
        rfl
      · rw [hstore, storeAll, storeAll, List.foldl_cons, store_of_skipped (hsame.mpr hskipped)]
    · obtain ⟨bytes, hbytes⟩ := hhead hskipped
      have hinsert : ∀ x ∈ rest, (current.insert (format.rowKey d) bytes).get? (format.rowKey x) =
          rows.get? (format.rowKey x) := by
        intro x hx
        have hne : format.rowKey x ≠ format.rowKey d := fun heq =>
          hfresh (heq ▸ List.mem_map_of_mem hx)
        rw [OrdMap.get?_insert_of_ne hne]
        exact htail x hx
      obtain ⟨puts, hputs, hstore⟩ := ih hdistinct hrest hinsert
      refine ⟨(format.node d, bytes) :: puts, ?_, ?_⟩
      · rw [pagePuts, skipReason_eq_none.mpr hskipped, hbytes, hputs,
          skippedNodes_cons_of_not hskipped]
        rfl
      · rw [List.foldl_cons, storeAll, List.foldl_cons,
          store_of_encode (mt hsame.mp hskipped) hbytes]
        exact hstore

lemma pagePuts_of_not_writable (h : ¬ format.Writable bound rows descriptors) :
    ∃ e, format.pagePuts bound rows descriptors = .error e := by
  induction descriptors with
  | nil => exact absurd (fun _ hd => absurd hd List.not_mem_nil) h
  | cons d rest ih =>
    cases hreason : format.skipReason bound rows d with
    | some reason =>
      have hskipped : format.SkippedBy bound rows d := by
        by_contra hnot
        rw [skipReason_eq_none.mpr hnot] at hreason
        cases hreason
      obtain ⟨e, he⟩ :=
        ih fun hrest => h (writable_cons.mpr ⟨fun hnot => absurd hskipped hnot, hrest⟩)
      exact ⟨e, by rw [pagePuts, hreason, he]; rfl⟩
    | none =>
      cases hencode : format.encode d with
      | error e => exact ⟨e, by rw [pagePuts, hreason, hencode]; rfl⟩
      | ok bytes =>
        obtain ⟨e, he⟩ := ih fun hrest => h (writable_cons.mpr ⟨fun _ => ⟨bytes, hencode⟩, hrest⟩)
        exact ⟨e, by rw [pagePuts, hreason, hencode, he]; rfl⟩

lemma applyBatch_of_writable (hdistinct : (descriptors.map format.rowKey).Nodup)
    (h : format.Writable bound rows descriptors) :
    (format.applyBatch bound rows descriptors .committed .committed).store =
        format.storeAll bound rows descriptors ∧
      (format.applyBatch bound rows descriptors .committed .committed).answer =
        .ok (format.skippedNodes bound rows descriptors) := by
  obtain ⟨puts, hputs, hstore⟩ := pagePuts_of_writable hdistinct h fun _ _ => rfl
  unfold applyBatch
  rw [hputs]
  cases puts with
  | nil | cons put puts => exact ⟨hstore, rfl⟩

lemma applyBatch_of_not_writable (h : ¬ format.Writable bound rows descriptors) :
    ∃ e, (format.applyBatch bound rows descriptors .committed .committed).answer = .error e := by
  obtain ⟨e, he⟩ := pagePuts_of_not_writable h
  refine ⟨e, ?_⟩
  unfold applyBatch
  rw [he]
  rfl

lemma get?_storeAll_later (bound : NodeId → Bool) (rows : DescriptorRows)
    {page later : List format.Descriptor}
    (hdistinct : ((page ++ later).map format.rowKey).Nodup) :
    ∀ d ∈ later, (format.storeAll bound rows page).get? (format.rowKey d) =
      rows.get? (format.rowKey d) := by
  intro d hd
  rw [List.map_append, List.nodup_append] at hdistinct
  exact get?_storeAll_of_notMem fun hmem =>
    hdistinct.2.2 _ hmem _ (List.mem_map_of_mem hd) rfl

lemma writable_append {l l' : List format.Descriptor} : format.Writable bound rows (l ++ l') ↔
    format.Writable bound rows l ∧ format.Writable bound rows l' := List.forall_mem_append

lemma commitEach_of_writable {pages : List (List format.Descriptor)}
    (hdistinct : (pages.flatten.map format.rowKey).Nodup)
    (h : format.Writable bound rows pages.flatten) :
    ∃ skipped, (commitEach
      (fun rows page => format.applyBatch bound rows page .committed .committed)
        rows pages).answer = .ok skipped ∧
      (commitEach (fun rows page => format.applyBatch bound rows page .committed .committed)
        rows pages).store = format.storeAll bound rows pages.flatten ∧
      skipped.flatten = format.skippedNodes bound rows pages.flatten := by
  induction pages generalizing rows with
  | nil => exact ⟨[], rfl, rfl, rfl⟩
  | cons page pages ih =>
    rw [List.flatten_cons] at hdistinct h ⊢
    obtain ⟨hpage, hlater⟩ := writable_append.mp h
    have hsame := writable_congr bound (get?_storeAll_later bound rows hdistinct)
    rw [List.map_append, List.nodup_append] at hdistinct
    obtain ⟨hstore, hanswer⟩ := applyBatch_of_writable hdistinct.1 hpage
    obtain ⟨skipped, hskipped, hrest, hflat⟩ := ih hdistinct.2.1 (hsame.1.mpr hlater)
    refine ⟨format.skippedNodes bound rows page :: skipped, ?_, ?_, ?_⟩
    · simp only [commitEach, hanswer, hstore, hskipped]
      rfl
    · simp only [commitEach, hanswer, hstore, hrest, storeAll_append]
    · rw [List.flatten_cons, hflat, hsame.2, skippedNodes, skippedNodes, skippedNodes,
        List.filter_append, List.map_append]

lemma commitEach_of_not_writable {pages : List (List format.Descriptor)}
    (hdistinct : (pages.flatten.map format.rowKey).Nodup)
    (h : ¬ format.Writable bound rows pages.flatten) :
    ∃ e, (commitEach (fun rows page => format.applyBatch bound rows page .committed .committed)
        rows pages).answer = .error e := by
  induction pages generalizing rows with
  | nil => exact absurd (fun _ hd => absurd hd List.not_mem_nil) h
  | cons page pages ih =>
    rw [List.flatten_cons] at hdistinct h
    by_cases hpage : format.Writable bound rows page
    · have hsame := writable_congr bound (get?_storeAll_later bound rows hdistinct)
      rw [List.map_append, List.nodup_append] at hdistinct
      obtain ⟨hstore, hanswer⟩ := applyBatch_of_writable hdistinct.1 hpage
      have hlater : ¬ format.Writable bound (format.storeAll bound rows page) pages.flatten :=
        fun hnot => h (writable_append.mpr ⟨hpage, hsame.1.mp hnot⟩)
      obtain ⟨e, he⟩ := ih hdistinct.2.1 hlater
      refine ⟨e, ?_⟩
      simp only [commitEach, hanswer, hstore, he]
      rfl
    · obtain ⟨e, he⟩ := applyBatch_of_not_writable hpage
      refine ⟨e, ?_⟩
      simp only [commitEach, he]

end DescriptorFormat

end Radiata.Membership
