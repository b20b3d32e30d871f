import Radiata.Protocol.Selection

/-!
# The two sides of a selection

Two nodes offer what they have registered.  A label that both offer with one digest has
definitions that agree on both sides, as long as no two of the definitions collide under
the hash.  Closed and conflict-free sets of common labels are then the same on both sides,
and so is the selection.
-/

namespace Radiata.Protocol

open Lib Lib.Checked Reconcile

def DigestsInjective (sha256 : Hash) (left right : FeatureRegistry) : Prop :=
  ∀ tag tag' d e x y, left.get tag = some d → right.get tag' = some e → d.encode = .ok x →
    e.encode = .ok y → bodyDigest sha256 x = bodyDigest sha256 y → x = y

variable {left right : FeatureRegistry}

lemma DigestsInjective.symm {sha256 : Hash} (h : DigestsInjective sha256 left right) :
    DigestsInjective sha256 right left :=
  fun tag tag' d e x y hd he hx hy hdigest => (h tag' tag e d y x he hd hy hx hdigest.symm).symm

structure Offered (sha256 : Hash) (left right : FeatureRegistry) (a b : FeatureOffer) : Prop where
  ofLeft : ∀ {tag digest}, (tag, digest) ∈ a.supported ↔
    ∃ d, left.get tag = some d ∧ d.definitionDigest sha256 = .ok digest
  ofRight : ∀ {tag digest}, (tag, digest) ∈ b.supported ↔
    ∃ d, right.get tag = some d ∧ d.definitionDigest sha256 = .ok digest
  injective : DigestsInjective sha256 left right

namespace Offered

variable {sha256 : Hash} {left right : FeatureRegistry} {a b : FeatureOffer}

section

variable (h : Offered sha256 left right a b)
include h

lemma symm : Offered sha256 right left b a :=
  ⟨h.ofRight, h.ofLeft, h.injective.symm⟩

lemma agree {tag : FeatureTag} {d e : FeatureDefinition} {digest : Digest}
    (hd : left.get tag = some d) (he : right.get tag = some e)
    (hdd : d.definitionDigest sha256 = .ok digest) (hee : e.definitionDigest sha256 = .ok digest) :
    d.Agree e := by
  obtain ⟨x, hx, hdx⟩ := bind_eq_ok.mp hdd
  obtain ⟨y, hy, hey⟩ := bind_eq_ok.mp hee
  have hxy : x = y := h.injective tag tag d e x y hd he hx hy
    (Except.ok.inj (hdx.trans hey.symm))
  exact .of_encode hx (hxy ▸ hy)

def Aligned (sha256 : Hash) (left : FeatureRegistry) (a b : FeatureOffer) : Prop :=
  ∀ entry ∈ a.supported, DigestsAgree sha256 left b entry

lemma aligned_symm (haligned : Aligned sha256 left a b) : Aligned sha256 right b a := by
  rintro ⟨tag, digest⟩ hentry digest' hdigest'
  have hmem := FeatureOffer.supportedDigest_eq_some.mp hdigest'
  have hb : b.supportedDigest tag = some digest := FeatureOffer.supportedDigest_eq_some.mpr hentry
  obtain ⟨hsame, -⟩ := haligned (tag, digest') hmem digest hb
  refine ⟨hsame.symm, fun e he => ?_⟩
  obtain ⟨e', he', hdigest⟩ := h.ofRight.mp hentry
  rw [Option.some.inj (he.symm.trans he')]
  exact hdigest

lemma exists_agree (haligned : Aligned sha256 left a b) {tag : FeatureTag}
    (htag : tag ∈ commonLabels a b) :
    ∃ d e, left.get tag = some d ∧ right.get tag = some e ∧ d.Agree e := by
  obtain ⟨hina, hinb⟩ := htag
  obtain ⟨digest, ha⟩ := Option.isSome_iff_exists.mp hina
  obtain ⟨digest', hb⟩ := Option.isSome_iff_exists.mp hinb
  have hmem := FeatureOffer.supportedDigest_eq_some.mp ha
  obtain ⟨d, hd, hdd⟩ := h.ofLeft.mp hmem
  obtain ⟨e, he, hee⟩ := h.ofRight.mp (FeatureOffer.supportedDigest_eq_some.mp hb)
  obtain ⟨rfl, -⟩ := haligned _ hmem digest' hb
  exact ⟨d, e, hd, he, h.agree hd he hdd hee⟩

end

variable {S : Set FeatureTag}

section

variable (h : Offered sha256 left right a b)
include h

lemma closed (haligned : Aligned sha256 left a b) (hS : S ⊆ commonLabels a b)
    (hclosed : Closed left S) : Closed right S := by
  intro tag htag
  obtain ⟨d, e, hd, he, hagree⟩ := h.exists_agree haligned (hS htag)
  obtain ⟨d', hd', hdeps⟩ := hclosed tag htag
  obtain rfl := Option.some.inj (hd.symm.trans hd')
  exact ⟨e, he, fun dependency hdep => hdeps dependency ((hagree.dependencies dependency).mpr hdep)⟩

lemma conflictFree (haligned : Aligned sha256 left a b) (hS : S ⊆ commonLabels a b)
    (hfree : ConflictFree left S) : ConflictFree right S := by
  intro tag htag
  obtain ⟨d, e, hd, he, hagree⟩ := h.exists_agree haligned (hS htag)
  obtain ⟨d', hd', hconflicts⟩ := hfree tag htag
  obtain rfl := Option.some.inj (hd.symm.trans hd')
  exact ⟨e, he, fun conflict hc => hconflicts conflict ((hagree.conflicts conflict).mpr hc)⟩

lemma selects {required : Set FeatureTag} {selection : Selection}
    (hselects : Selects sha256 left a b required selection) :
    Selects sha256 right b a required selection := by
  obtain ⟨hdigests, hsorted, ⟨⟨hsubset, hclosed⟩, hgreatest⟩, hfree, hrequired, hbytes⟩ := hselects
  have hback := h.aligned_symm hdigests
  refine ⟨hback, hsorted, ⟨⟨?_, h.closed hdigests hsubset hclosed⟩, fun S hS => ?_⟩,
    h.conflictFree hdigests hsubset hfree, hrequired, hbytes⟩
  · rwa [commonLabels_comm]
  · have hS' : S ⊆ commonLabels b a := hS.1
    exact hgreatest ⟨by rwa [commonLabels_comm], h.symm.closed hback hS' hS.2⟩

end

end Offered

def sharedLabels (a b : FeatureOffer) : Set FeatureTag :=
  {tag | ∃ digest, (tag, digest) ∈ a.supported ∧ (tag, digest) ∈ b.supported}

lemma Selects.sharedLabels_eq {sha256 : Hash} {registry : FeatureRegistry} {a b : FeatureOffer}
    {required : Set FeatureTag} {selection : Selection}
    (h : Selects sha256 registry a b required selection) : sharedLabels a b = commonLabels a b := by
  ext tag
  constructor
  · rintro ⟨digest, ha, hb⟩
    rw [← FeatureOffer.supportedDigest_eq_some] at ha hb
    exact ⟨by rw [ha]; rfl, by rw [hb]; rfl⟩
  · rintro ⟨hina, hinb⟩
    obtain ⟨digest, ha⟩ := Option.isSome_iff_exists.mp hina
    obtain ⟨digest', hb⟩ := Option.isSome_iff_exists.mp hinb
    have hmem := FeatureOffer.supportedDigest_eq_some.mp ha
    obtain ⟨rfl, -⟩ := h.digests _ hmem digest' hb
    exact ⟨_, hmem, FeatureOffer.supportedDigest_eq_some.mp hb⟩

/-- **Selection is symmetric and greatest.**  For any two registries and the offers of their nodes,
either side selects exactly what the other does.  It is the greatest set of labels that both offers
have with one digest and that is closed under dependencies, it is free of conflicts on both sides
and contains what both sides require.  No order of the definitions or of the offers' entries
changes it. -/
theorem select_symmetric_greatest {sha256 : Hash}
    {leftDefinitions rightDefinitions : List FeatureDefinition}
    {left right : FeatureRegistry} {leftRequired rightRequired : OrdSet FeatureTag}
    {a b : FeatureOffer} (hleft : FeatureRegistry.build leftDefinitions = .ok left)
    (hright : FeatureRegistry.build rightDefinitions = .ok right)
    (ha : nodeOffer sha256 left leftRequired = .ok a)
    (hb : nodeOffer sha256 right rightRequired = .ok b)
    (hinjective : DigestsInjective sha256 left right) :
    (∀ selection, select sha256 left a b a.required b.required = .ok selection ↔
      select sha256 right b a b.required a.required = .ok selection) ∧
    (∀ selection, select sha256 left a b a.required b.required = .ok selection →
      IsGreatest {S | S ⊆ sharedLabels a b ∧ Closed left S} {tag | tag ∈ selection.features} ∧
      IsGreatest {S | S ⊆ sharedLabels a b ∧ Closed right S} {tag | tag ∈ selection.features} ∧
      ConflictFree left {tag | tag ∈ selection.features} ∧
      ConflictFree right {tag | tag ∈ selection.features} ∧
      leftRequired.members ∪ rightRequired.members ⊆ {tag | tag ∈ selection.features} ∧
      {tag | tag ∈ a.required} ∪ {tag | tag ∈ b.required} ⊆ {tag | tag ∈ selection.features}) ∧
    (∀ definitions, definitions.Perm leftDefinitions →
      FeatureRegistry.build definitions = .ok left) ∧
    (∀ definitions, definitions.Perm rightDefinitions →
      FeatureRegistry.build definitions = .ok right) ∧
    (∀ supported required, supported.Perm a.supported → required.Perm a.required →
      FeatureOffer.new supported required = .ok a) ∧
    (∀ supported required, supported.Perm b.supported → required.Perm b.required →
      FeatureOffer.new supported required = .ok b) := by
  have hoffered : Offered sha256 left right a b :=
    ⟨mem_supported_nodeOffer ha, mem_supported_nodeOffer hb, hinjective⟩
  have hcomm : {tag | tag ∈ a.required ++ b.required} = {tag | tag ∈ b.required ++ a.required} := by
    ext tag
    simp only [Set.mem_ofPred_eq, List.mem_append, or_comm]
  refine ⟨fun selection => ?_, fun selection hselect => ?_,
    fun _ h => (FeatureRegistry.build_perm h).trans hleft,
    fun _ h => (FeatureRegistry.build_perm h).trans hright,
    fun _ _ => a.new_of_perm, fun _ _ => b.new_of_perm⟩
  · rw [select_eq_ok, select_eq_ok, hcomm]
    exact ⟨hoffered.selects, hoffered.symm.selects⟩
  · have hhere := select_eq_ok.mp hselect
    have hthere := hoffered.selects hhere
    have hshared := hhere.sharedLabels_eq
    have hrequired : {tag | tag ∈ a.required} ∪ {tag | tag ∈ b.required} ⊆
        {tag | tag ∈ selection.features} := by
      intro tag htag
      exact hhere.required (List.mem_append.mpr htag)
    refine ⟨?_, ?_, hhere.conflictFree, hthere.conflictFree, ?_, hrequired⟩
    · rw [hshared]
      exact hhere.greatest
    · rw [hshared, commonLabels_comm]
      exact hthere.greatest
    · exact Set.union_subset_union (required_nodeOffer ha) (required_nodeOffer hb) |>.trans
        hrequired

/-! ## A pair of nodes -/

def sampleTag (name : Fin 3) : FeatureTag :=
  match name with
  | 0 => ⟨⟨authEd25519Session, 18, 27, none, by decide +kernel⟩, by decide +kernel⟩
  | 1 => ⟨⟨sessionCore, 18, 27, none, by decide +kernel⟩, by decide +kernel⟩
  | 2 => ⟨⟨"a/features/b".toList, 1, 10, none, by decide +kernel⟩, by decide +kernel⟩

def sampleDefinition (name : Fin 3) : FeatureDefinition where
  tag := sampleTag name
  fingerprint := Vector.replicate 32 0
  dependencies := if name = 1 then [sampleTag 0] else []
  conflicts := []
  protocols := []
  dependencies_valid := by revert name; decide +kernel
  conflicts_valid := ⟨List.not_mem_nil, List.nodup_nil⟩
  protocols_valid := List.nodup_nil

lemma sampleDefinition_digests (i j : Fin 3)
    (h : (sampleDefinition i).definitionDigest sumHash =
    (sampleDefinition j).definitionDigest sumHash) :
    i = j := by
  revert i j
  decide +kernel

lemma sampleDefinitions_injective {ds es : List (Fin 3)}
    (hleft : FeatureRegistry.build (ds.map sampleDefinition) = .ok left)
    (hright : FeatureRegistry.build (es.map sampleDefinition) = .ok right) :
    DigestsInjective sumHash left right := by
  intro tag tag' d e x y hd he hx hy hdigest
  obtain ⟨i, -, rfl⟩ := List.mem_map.mp (FeatureRegistry.mem_of_build hleft hd)
  obtain ⟨j, -, rfl⟩ := List.mem_map.mp (FeatureRegistry.mem_of_build hright he)
  have hdigests : (sampleDefinition i).definitionDigest sumHash =
      (sampleDefinition j).definitionDigest sumHash := by
    rw [FeatureDefinition.definitionDigest, FeatureDefinition.definitionDigest, hx, hy, ok_bind,
      ok_bind, hdigest]
  obtain rfl := sampleDefinition_digests i j hdigests
  exact Except.ok.inj (hx.symm.trans hy)

def sampleSelection (names names' : List (Fin 3)) : Result Selection := do
  let left ← FeatureRegistry.build (names.map sampleDefinition)
  let right ← FeatureRegistry.build (names'.map sampleDefinition)
  let a ← nodeOffer sumHash left .empty
  let b ← nodeOffer sumHash right .empty
  replaceError (select sumHash left a b a.required b.required) (.invalidInput "selection")

/-- A node with two features and one with three. -/
theorem sample_pair_selects : ∃ left right a b selection,
    nodeOffer sumHash left .empty = .ok a ∧ nodeOffer sumHash right .empty = .ok b ∧
      select sumHash left a b a.required b.required = .ok selection ∧
      select sumHash right b a b.required a.required = .ok selection := by
  obtain ⟨selection, h⟩ := exists_eq_ok (x := sampleSelection [0, 1] [2, 1, 0]) (by decide +kernel)
  obtain ⟨left, hleft, h⟩ := bind_eq_ok.mp h
  obtain ⟨right, hright, h⟩ := bind_eq_ok.mp h
  obtain ⟨a, ha, h⟩ := bind_eq_ok.mp h
  obtain ⟨b, hb, h⟩ := bind_eq_ok.mp h
  have hselect := replaceError_eq_ok.mp h
  have hsymmetric := select_symmetric_greatest hleft hright ha hb
    (sampleDefinitions_injective hleft hright)
  exact ⟨left, right, a, b, selection, ha, hb, hselect, (hsymmetric.1 selection).mp hselect⟩

end Radiata.Protocol
