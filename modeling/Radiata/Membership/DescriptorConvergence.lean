import Radiata.Membership.DescriptorLane

/-!
# Convergence of the descriptor register

Descriptors of bound nodes reach the register through single stores and through the lane, in any
order, any number of times and in any batches.  All of it comes to storing what was brought one
by one, and that to the first descriptor of the highest revision of each node.  So what the
register ends with is independent of the delivery as long as that descriptor is the only one of
its revision; with two of them, the one that came first stays.
-/

namespace Radiata.Membership

open Lib Identity Reconcile Storage

inductive Delivery (format : DescriptorFormat) where
  | store (descriptor : format.Descriptor)
  | lane (batch : List Row)

namespace Delivery

variable {format : DescriptorFormat}

def brings : Delivery format → List format.Descriptor
  | store descriptor => [descriptor]
  | lane batch => format.descriptors batch

variable (bound : NodeId → Bool) (rows : DescriptorRows)

def apply : Delivery format → DescriptorRows
  | store descriptor => (format.store bound rows descriptor .committed).store
  | lane batch => (format.applyRows bound rows batch).store

variable (deliveries : List (Delivery format))

def run : DescriptorRows := deliveries.foldl (apply bound) rows

def Bring (given : List format.Descriptor) : Prop :=
  ∀ d, d ∈ deliveries.flatMap brings ↔ d ∈ given

end Delivery

namespace LawfulFormat

open DescriptorFormat

variable (format : LawfulFormat) (bound : NodeId → Bool) (rows : DescriptorRows)
  (given : List format.Descriptor)

def Eligible : Prop :=
  ∀ d ∈ given, bound (format.node d) = true ∧ 1 ≤ format.revision d ∧ format.Encodes d

/-- The stored descriptor of a node has the highest revision of those given for it and the one
stored before, and is one of them. -/
def HoldsHighest (final : DescriptorRows) : Prop :=
  ∀ d ∈ given, ∃ s, format.stored final (format.node d) = some s ∧
    (s ∈ given ∨ format.stored rows (format.node d) = some s) ∧
    (∀ x ∈ given, format.node x = format.node d → format.revision x ≤ format.revision s) ∧
    ∀ e, format.stored rows (format.node d) = some e → format.revision e ≤ format.revision s

def Converges : Prop :=
  ∃ final, HoldsHighest format rows given final ∧
    ∀ deliveries, Delivery.Bring deliveries given → Delivery.run bound rows deliveries = final

/-- The highest revision given for a node, if the stored one is lower, is that of one descriptor
only. -/
def HighestUnique : Prop :=
  ∀ d ∈ given, ∀ d' ∈ given, format.node d = format.node d' →
    format.revision d = format.revision d' →
    (∀ x ∈ given, format.node x = format.node d → format.revision x ≤ format.revision d) →
    (∀ e, format.stored rows (format.node d) = some e → format.revision e < format.revision d) →
    d = d'

variable {format bound rows given}

/-! ## Deliveries as stores -/

variable {descriptors : List format.Descriptor}

lemma Eligible.writable (h : Eligible format bound given) (rows : DescriptorRows)
    (hsub : descriptors ⊆ given) : format.Writable bound rows descriptors :=
  fun d hd _ => (h d (hsub hd)).2.2

variable {row : Option (List UInt8)}

section

variable (h : Eligible format bound given)
include h

lemma Eligible.not_startsLow (hsub : descriptors ⊆ given) :
    ¬ StartsLow format bound row descriptors := by
  rintro ⟨-, -, d, hd, -, hunbound⟩
  rw [(h d (hsub hd)).1] at hunbound
  cases hunbound

lemma Eligible.apply_eq {delivery : Delivery format.toDescriptorFormat}
    (hsub : delivery.brings ⊆ given) :
    delivery.apply bound rows = format.storeAll bound rows delivery.brings := by
  cases delivery with
  | store descriptor => rfl
  | lane batch =>
    have hwinners : (format.winners batch).map Prod.snd ⊆ given := by
      intro d hd
      obtain ⟨e, he, rfl⟩ := List.mem_map.mp hd
      exact hsub (List.mem_map_of_mem (mem_decoded_of_winner he))
    have hwritable := h.writable rows hwinners
    obtain ⟨-, -, hstore, -⟩ := applyRows_of_writable hwritable
    refine hstore.trans ((storeAll_winners_iff hwritable).mpr fun key => ?_)
    exact h.not_startsLow fun d hd => hsub (mem_keyedBy.mp hd).1

lemma Eligible.run_eq {deliveries : List (Delivery format.toDescriptorFormat)}
    (hsub : deliveries.flatMap Delivery.brings ⊆ given) : Delivery.run bound rows deliveries =
      format.storeAll bound rows (deliveries.flatMap Delivery.brings) := by
  induction deliveries generalizing rows with
  | nil => rfl
  | cons delivery deliveries ih =>
    rw [List.flatMap_cons] at hsub ⊢
    rw [storeAll_append, ← h.apply_eq fun d hd => hsub (List.mem_append_left _ hd)]
    exact ih fun d hd => hsub (List.mem_append_right _ hd)

end

/-! ## One node -/

variable {d : format.Descriptor}

lemma skips_congr {d' : format.Descriptor} (hnode : format.node d = format.node d')
    (hrevision : format.revision d = format.revision d') :
    format.Skips bound row d ↔ format.Skips bound row d' := by
  unfold Skips
  rw [hnode, hrevision]

lemma Eligible.exists_of_skips (h : Eligible format bound given) (hd : d ∈ given)
    (hskips : format.Skips bound row d) :
    ∃ e, format.readRow row = some e ∧ format.revision d ≤ format.revision e := by
  obtain ⟨hbound, hone, -⟩ := h d hd
  cases hread : format.readRow row with
  | some e => exact ⟨e, rfl, (skips_of_some hread).mp hskips⟩
  | none =>
    rcases (skips_of_none hread).mp hskips with hzero | ⟨-, hunbound⟩
    · rw [hzero] at hone
      exact absurd hone (by decide)
    · rw [hbound] at hunbound
      cases hunbound

variable {l : List format.Descriptor}

lemma Eligible.get?_storeAll (h : Eligible format bound given) (rows : DescriptorRows)
    (hsub : l ⊆ given) {w : format.Descriptor}
    (hw : format.champion (keyedBy format.rowKey (format.rowKey w) l) = some w) :
    (format.storeAll bound rows l).get? (format.rowKey w) =
      format.offer bound (rows.get? (format.rowKey w)) w := by
  have hmem := (mem_keyedBy.mp (champion_mem hw)).1
  have hnode : ∀ d ∈ keyedBy format.rowKey (format.rowKey w) l, format.node d = format.node w :=
    fun d hd => idBytes_injective (mem_keyedBy.mp hd).2
  rw [DescriptorFormat.get?_storeAll]
  refine (offers_eq_offer_iff hnode hw fun _ => (h w (hsub hmem)).2.2).mpr ?_
  exact h.not_startsLow fun d hd => hsub (mem_keyedBy.mp hd).1

lemma exists_champion (hd : d ∈ l) : ∃ w ∈ l, format.rowKey w = format.rowKey d ∧
      format.champion (keyedBy format.rowKey (format.rowKey d) l) = some w := by
  cases hw : format.champion (keyedBy format.rowKey (format.rowKey d) l) with
  | none =>
    have hnil := settle_eq_none.mp hw
    exact absurd (mem_keyedBy.mpr ⟨hd, rfl⟩) (hnil ▸ List.not_mem_nil)
  | some w =>
    obtain ⟨hmem, hkey⟩ := mem_keyedBy.mp (champion_mem hw)
    exact ⟨w, hmem, hkey, rfl⟩

section

variable (h : Eligible format bound given)
include h

lemma Eligible.storeAll_congr (hunique : HighestUnique format rows given)
    {l' : List format.Descriptor} (hl : ∀ d, d ∈ l ↔ d ∈ given) (hl' : ∀ d, d ∈ l' ↔ d ∈ given) :
    format.storeAll bound rows l = format.storeAll bound rows l' := by
  refine OrdMap.ext_get? fun key => ?_
  by_cases hkey : ∃ d ∈ given, format.rowKey d = key
  · obtain ⟨d, hd, rfl⟩ := hkey
    obtain ⟨w, hw, hwkey, hchampion⟩ := exists_champion ((hl d).mpr hd)
    obtain ⟨w', hw', hwkey', hchampion'⟩ := exists_champion ((hl' d).mpr hd)
    have hsame : ∀ x, x ∈ keyedBy format.rowKey (format.rowKey d) l ↔
        x ∈ keyedBy format.rowKey (format.rowKey d) l' := fun x => by
      rw [mem_keyedBy, mem_keyedBy, hl, hl']
    have hrevision : format.revision w = format.revision w' :=
      le_antisymm (champion_le hchampion' ((hsame w).mp (champion_mem hchampion)))
        (champion_le hchampion ((hsame w').mpr (champion_mem hchampion')))
    have hnode : format.node w = format.node w' := idBytes_injective (hwkey.trans hwkey'.symm)
    rw [← hwkey] at hchampion
    rw [← hwkey'] at hchampion'
    have hleft := h.get?_storeAll rows (fun x hx => (hl x).mp hx) hchampion
    have hright := h.get?_storeAll rows (fun x hx => (hl' x).mp hx) hchampion'
    rw [hwkey] at hleft
    rw [hwkey'] at hright
    rw [hleft, hright]
    by_cases hskips : format.Skips bound (rows.get? (format.rowKey d)) w
    · rw [offer_of_skips hskips, offer_of_skips ((skips_congr hnode hrevision).mp hskips)]
    · have heq : w = w' := by
        refine hunique w ((hl w).mp hw) w' ((hl' w').mp hw') hnode hrevision (fun x hx hxnode => ?_)
          ?_
        · exact champion_le hchampion (mem_keyedBy.mpr ⟨(hl x).mpr hx, congrArg idBytes hxnode⟩)
        · intro e he
          have hread : format.readRow (rows.get? (format.rowKey d)) = some e := hwkey ▸ he
          rw [skips_of_some hread, not_le] at hskips
          exact hskips
      rw [heq]
  · have hnone : ∀ {l : List format.Descriptor}, (∀ d, d ∈ l ↔ d ∈ given) →
        key ∉ l.map format.rowKey := by
      intro l hl hmem
      obtain ⟨d, hd, hdkey⟩ := List.mem_map.mp hmem
      exact hkey ⟨d, (hl d).mp hd, hdkey⟩
    rw [get?_storeAll_of_notMem (hnone hl), get?_storeAll_of_notMem (hnone hl')]

lemma Eligible.holdsHighest :
    HoldsHighest format rows given (format.storeAll bound rows given) := by
  intro d hd
  obtain ⟨w, hw, hkey, hchampion⟩ := exists_champion hd
  have hnode : format.node w = format.node d := idBytes_injective hkey
  have hhighest : ∀ x ∈ given, format.node x = format.node d → format.revision x ≤
      format.revision w :=
    fun x hx hxnode => champion_le hchampion (mem_keyedBy.mpr ⟨hx, congrArg idBytes hxnode⟩)
  rw [← hkey] at hchampion
  have hrow := h.get?_storeAll rows (List.Subset.refl _) hchampion
  have hstored : ∀ rows' : DescriptorRows, format.stored rows' (format.node d) =
      format.readRow (rows'.get? (format.rowKey w)) := fun rows' => by
    rw [hkey]
    rfl
  by_cases hskips : format.Skips bound (rows.get? (format.rowKey w)) w
  · obtain ⟨e, he, hle⟩ := h.exists_of_skips hw hskips
    have hbefore : format.stored rows (format.node d) = some e := (hstored rows).trans he
    refine ⟨e, ?_, .inr hbefore, fun x hx hxnode => (hhighest x hx hxnode).trans hle, ?_⟩
    · rw [hstored, hrow, offer_of_skips hskips, he]
    · intro e' he'
      rw [Option.some.inj (hbefore.symm.trans he')]
  · obtain ⟨bytes, hbytes⟩ := (h w hw).2.2
    refine ⟨w, ?_, .inl hw, hhighest, fun e he => ?_⟩
    · rw [hstored, hrow, offer_of_encode hskips hbytes, readRow_of_encode hbytes]
    · rw [hstored] at he
      rw [skips_of_some he, not_le] at hskips
      exact hskips.le

lemma Eligible.first_stays (hd : d ∈ given) (hsub : l ⊆ given)
    (hhighest : ∀ x ∈ given, format.node x = format.node d → format.revision x ≤ format.revision d)
    (hhigher : ∀ e, format.stored rows (format.node d) = some e → format.revision e <
      format.revision d) :
    format.stored (format.storeAll bound rows (d :: l)) (format.node d) = some d := by
  have hchampion : format.champion (keyedBy format.rowKey (format.rowKey d) (d :: l)) = some d := by
    rw [keyedBy_cons_self]
    refine settle_cons_of_least fun x hx => ?_
    obtain ⟨hmem, hkey⟩ := mem_keyedBy.mp hx
    exact hhighest x (hsub hmem) (idBytes_injective hkey)
  have hrow := h.get?_storeAll rows (List.cons_subset.mpr ⟨hd, hsub⟩) hchampion
  have htakes : ¬ format.Skips bound (rows.get? (format.rowKey d)) d := by
    intro hskips
    obtain ⟨e, he, hle⟩ := h.exists_of_skips hd hskips
    exact absurd (hhigher e he) (not_lt.mpr hle)
  obtain ⟨bytes, hbytes⟩ := (h d hd).2.2
  change format.readRow ((format.storeAll bound rows (d :: l)).get? (format.rowKey d)) = some d
  rw [hrow, offer_of_encode htakes hbytes, readRow_of_encode hbytes]

end

def oneByOne (l : List format.Descriptor) : List (Delivery format.toDescriptorFormat) :=
  l.map .store

lemma brings_oneByOne (l : List format.Descriptor) : (oneByOne l).flatMap Delivery.brings = l := by
  rw [oneByOne, List.flatMap_map]
  exact List.flatMap_singleton' l

/-- **The register converges exactly when the highest revisions are unique.** -/
theorem register_converges_iff (h : Eligible format bound given) :
    Converges format bound rows given ↔ HighestUnique format rows given := by
  constructor
  · rintro ⟨final, -, hfinal⟩ d hd d' hd' hnode hrevision hhighest hhigher
    have hrun : ∀ a ∈ given, ∀ b ∈ given, format.storeAll bound rows (a :: b :: given) = final := by
      intro a ha b hb
      have hmem : ∀ x, x ∈ a :: b :: given ↔ x ∈ given := by
        intro x
        rw [List.mem_cons, List.mem_cons]
        exact ⟨fun hx => hx.elim (· ▸ ha) (·.elim (· ▸ hb) id), fun hx => .inr (.inr hx)⟩
      have hbring : Delivery.Bring (oneByOne (a :: b :: given)) given := by
        intro x
        rw [brings_oneByOne, hmem]
      rw [← hfinal _ hbring, h.run_eq fun x hx => (hbring x).mp hx, brings_oneByOne]
    have hfirst := h.first_stays hd (l := d' :: given)
      (List.cons_subset.mpr ⟨hd', List.Subset.refl _⟩) hhighest hhigher
    have hsecond := h.first_stays hd' (l := d :: given)
      (List.cons_subset.mpr ⟨hd, List.Subset.refl _⟩)
      (fun x hx hxnode => hrevision ▸ hhighest x hx (hxnode.trans hnode.symm))
      (fun e he => hrevision ▸ hhigher e (hnode ▸ he))
    rw [hrun d hd d' hd'] at hfirst
    rw [hrun d' hd' d hd, ← hnode] at hsecond
    exact Option.some.inj (hfirst.symm.trans hsecond)
  · intro hunique
    refine ⟨format.storeAll bound rows given, h.holdsHighest, fun deliveries hbring => ?_⟩
    rw [h.run_eq fun d hd => (hbring d).mp hd]
    exact h.storeAll_congr hunique hbring fun d => Iff.rfl

end LawfulFormat

/-- Revisions one and two of a bound node. -/
theorem sample_register_converges :
    LawfulFormat.Converges (nodeDescriptorFormat plainEndpoints) (fun _ => true) .empty
      [sampleDescriptor 1, sampleDescriptor 2] := by
  have heligible : LawfulFormat.Eligible (nodeDescriptorFormat plainEndpoints) (fun _ => true)
      [sampleDescriptor 1, sampleDescriptor 2] := by
    intro d hd
    rcases List.mem_pair.mp hd with rfl | rfl
    · exact ⟨rfl, show (1 : UInt64) ≤ 1 by decide, Checked.exists_eq_ok (by decide +kernel)⟩
    · exact ⟨rfl, show (1 : UInt64) ≤ 2 by decide, Checked.exists_eq_ok (by decide +kernel)⟩
  refine (LawfulFormat.register_converges_iff heligible).mpr ?_
  intro d hd d' hd' _ hrevision _ _
  rcases List.mem_pair.mp hd with rfl | rfl <;> rcases List.mem_pair.mp hd' with rfl | rfl
  · rfl
  · exact absurd hrevision (show ¬ (1 : UInt64) = 2 by decide)
  · exact absurd hrevision (show ¬ (2 : UInt64) = 1 by decide)
  · rfl

def sampleRival : NodeDescriptorV1 plainEndpoints :=
  { sampleDescriptor 1 with publicKey := ⟨List.replicate 32 1, by decide⟩ }

def sampleRivalRow : Row := ⟨idBytes sampleRival.node, sampleRival.encode.toOption.getD []⟩

def afterBatch (first second : Row) : DescriptorRows :=
  Delivery.run (fun _ => true) .empty
    [(.lane [first, second] : Delivery (nodeDescriptorFormat plainEndpoints).toDescriptorFormat)]

def afterStores (first second : NodeDescriptorV1 plainEndpoints) : DescriptorRows :=
  Delivery.run (fun _ => true) .empty
    [(.store first : Delivery (nodeDescriptorFormat plainEndpoints).toDescriptorFormat),
      .store second]

/-- Two descriptors of revision one: whichever comes first stays, in a batch and in single
stores. -/
theorem equal_revisions_keep_first :
    (sampleDescriptor 1).revision = sampleRival.revision ∧
      (sampleDescriptorRow 1).content ≠ sampleRivalRow.content ∧
      (afterBatch (sampleDescriptorRow 1) sampleRivalRow).get? sampleRivalRow.key =
        some (sampleDescriptorRow 1).content ∧
      (afterBatch sampleRivalRow (sampleDescriptorRow 1)).get? sampleRivalRow.key =
        some sampleRivalRow.content ∧
      (afterStores (sampleDescriptor 1) sampleRival).get? sampleRivalRow.key =
        some (sampleDescriptorRow 1).content ∧
      (afterStores sampleRival (sampleDescriptor 1)).get? sampleRivalRow.key =
        some sampleRivalRow.content := by
  refine ⟨rfl, ?_, ?_, ?_, ?_, ?_⟩
  · decide +kernel
  · decide +kernel
  · decide +kernel
  · decide +kernel
  · decide +kernel

end Radiata.Membership
