import Radiata.Lib.Checked
import Radiata.Protocol.Offer

/-!
# Feature selection

Both peers compute the effective feature set on their own, each with its own definitions:
the labels of both offers with equal digests, without those whose dependencies are not all
left, until nothing more is removed.  A conflict that is left or a required label that is
not rejects the pair.

Each endpoint reads only its own registry.  The digests tie the two registries together:
labels with equal digests have the same dependencies and conflicts on both sides, so the
two computations select the same greatest set or both fail.
-/

namespace Radiata.Protocol

open Lib Lib.Cbor Lib.Checked Reconcile

inductive SelectionError where
  | digestMismatch (label : Text)
  | conflict (first second : Text)
  | missingRequired (label : Text)
  | unknownRequired (label : Text)
  | malformed (context : String)
deriving DecidableEq

namespace SelectionError

end SelectionError

structure Selection where
  features : List FeatureTag
  bytes : List UInt8
deriving DecidableEq

def selectionCodec : Codec (List Text) := .array (.last Codec.chars.vec)

/-! ## The computation -/

section Select

variable (sha256 : Hash) (registry : FeatureRegistry)

/-- One label of the local offer: selected when the remote offer has it, with one digest that is
also the registered one. -/
def intersectStep (remote : FeatureOffer) (selected : OrdSet FeatureTag)
    (entry : FeatureTag × Digest) : Except SelectionError (OrdSet FeatureTag) :=
  match remote.supportedDigest entry.1 with
  | none => .ok selected
  | some remoteDigest => do
      ensure (remoteDigest = entry.2) (.digestMismatch entry.1.tag.value)
      match registry.get entry.1 with
      | none => .ok (selected.add entry.1)
      | some definition => do
          let digest ← replaceError (definition.definitionDigest sha256)
            (.malformed "selection definition digest")
          ensure (digest = entry.2) (.digestMismatch entry.1.tag.value)
          .ok (selected.add entry.1)

def intersect (localOffer remoteOffer : FeatureOffer) :
    Except SelectionError (OrdSet FeatureTag) :=
  localOffer.supported.foldlM (intersectStep sha256 registry remoteOffer) .empty

variable (selected : OrdSet FeatureTag)

def supportedBy (tag : FeatureTag) : Bool :=
  (registry.get tag).any fun definition => definition.dependencies.all selected.contains

def dependencyFixedPoint : OrdSet FeatureTag :=
  OrdSet.settle (supportedBy registry) (selected.entries.length + 1) selected

def conflictError (tag conflict : FeatureTag) : SelectionError :=
  if tag < conflict then .conflict tag.tag.value conflict.tag.value
  else .conflict conflict.tag.value tag.tag.value

def rejectConflicts : Except SelectionError Unit :=
  forM selected.keys fun tag => do
    let definition ← orError (registry.get tag) (.malformed "selection definition")
    forM definition.conflicts fun conflict =>
      ensure (selected.contains conflict = false) (conflictError tag conflict)

def checkRequired (selected required : OrdSet FeatureTag) : Except SelectionError Unit :=
  forM required.keys fun tag => do
    ensure ((registry.get tag).isSome = true) (.unknownRequired tag.tag.value)
    ensure (selected.contains tag = true) (.missingRequired tag.tag.value)

def select (localOffer remoteOffer : FeatureOffer)
    (localRequired remoteRequired : List FeatureTag) :
    Except SelectionError Selection := do
  let selected ← intersect sha256 registry localOffer remoteOffer
  let selected := dependencyFixedPoint registry selected
  rejectConflicts registry selected
  checkRequired registry selected ((localRequired ++ remoteRequired).foldl OrdSet.add .empty)
  let bytes ← replaceError (encodeCanonical selectionCodec
    (selected.keys.map fun tag => tag.tag.value) controlCborLimits) (.malformed "selection encode")
  pure ⟨selected.keys, bytes⟩

end Select

/-! ## When each step succeeds -/

def commonLabels (a b : FeatureOffer) : Set FeatureTag :=
  {tag | (a.supportedDigest tag).isSome = true ∧ (b.supportedDigest tag).isSome = true}

lemma commonLabels_comm (a b : FeatureOffer) : commonLabels a b = commonLabels b a :=
  Set.ext fun _ => and_comm

section Steps

variable {sha256 : Hash} {registry : FeatureRegistry} {localOffer remoteOffer : FeatureOffer}

def DigestsAgree (sha256 : Hash) (registry : FeatureRegistry) (remote : FeatureOffer)
    (entry : FeatureTag × Digest) : Prop :=
  ∀ digest, remote.supportedDigest entry.1 = some digest →
    digest = entry.2 ∧ ∀ definition, registry.get entry.1 = some definition →
      definition.definitionDigest sha256 = .ok entry.2

variable {selected next : OrdSet FeatureTag}

lemma intersectStep_eq_ok {entry : FeatureTag × Digest} :
    intersectStep sha256 registry remoteOffer selected entry = .ok next ↔
      DigestsAgree sha256 registry remoteOffer entry ∧
        next = if (remoteOffer.supportedDigest entry.1).isSome then selected.add entry.1
          else selected := by
  unfold intersectStep DigestsAgree
  cases remoteOffer.supportedDigest entry.1 with
  | none => simp [eq_comm]
  | some digest =>
    dsimp only
    rw [ensure_bind_eq_ok]
    cases registry.get entry.1 with
    | none => simp [eq_comm]
    | some definition =>
      simp only [bind_ok_iff, replaceError_eq_ok, ensure_eq_ok, Option.some.injEq,
        forall_eq', Option.isSome_some, if_true, Except.ok.injEq]
      constructor
      · rintro ⟨hremote, found, hfound, -, rfl, rfl⟩
        exact ⟨⟨hremote, hfound⟩, rfl⟩
      · rintro ⟨⟨hremote, hfound⟩, rfl⟩
        exact ⟨hremote, entry.2, hfound, (), rfl, rfl⟩

lemma foldlM_intersectStep {entries : List (FeatureTag × Digest)} :
    entries.foldlM (intersectStep sha256 registry remoteOffer) selected = .ok next ↔
      (∀ entry ∈ entries, DigestsAgree sha256 registry remoteOffer entry) ∧
        next.members = selected.members ∪
          {tag | (∃ entry ∈ entries, entry.1 = tag) ∧ (remoteOffer.supportedDigest tag).isSome =
            true} := by
  induction entries generalizing selected with
  | nil =>
    rw [List.foldlM_nil]
    constructor
    · intro h
      obtain rfl := Except.ok.inj h
      simp
    · rintro ⟨-, h⟩
      exact congrArg Except.ok (OrdSet.ext_members (by simpa using h.symm))
  | cons entry entries ih =>
    rw [List.foldlM_cons, bind_ok_iff]
    have hstep (middle : OrdSet FeatureTag)
        (hmiddle : middle = if (remoteOffer.supportedDigest entry.1).isSome then selected.add
          entry.1
          else selected) :
        middle.members ∪ {tag | (∃ e ∈ entries, e.1 = tag) ∧
            (remoteOffer.supportedDigest tag).isSome = true} =
          selected.members ∪ {tag | (∃ e ∈ entry :: entries, e.1 = tag) ∧
            (remoteOffer.supportedDigest tag).isSome = true} := by
      ext tag
      rw [hmiddle]
      split_ifs with hsome
      · rw [OrdSet.members_add]
        show (tag = entry.1 ∨ _) ∨ _ ↔ _
        simp only [Set.mem_union, Set.mem_ofPred_eq, List.mem_cons, exists_eq_or_imp]
        by_cases htag : entry.1 = tag
        · subst htag
          simp [hsome]
        · simp [htag, Ne.symm htag]
      · simp only [Set.mem_union, Set.mem_ofPred_eq, List.mem_cons, exists_eq_or_imp]
        by_cases htag : entry.1 = tag
        · subst htag
          simp [hsome]
        · simp [htag]
    constructor
    · rintro ⟨middle, hmiddle, hrest⟩
      obtain ⟨hagree, hmiddle⟩ := intersectStep_eq_ok.mp hmiddle
      obtain ⟨hall, hmembers⟩ := ih.mp hrest
      exact ⟨List.forall_mem_cons.mpr ⟨hagree, hall⟩, hmembers.trans (hstep middle hmiddle)⟩
    · rintro ⟨hall, hmembers⟩
      obtain ⟨hagree, hall⟩ := List.forall_mem_cons.mp hall
      exact ⟨_, intersectStep_eq_ok.mpr ⟨hagree, rfl⟩,
        ih.mpr ⟨hall, hmembers.trans (hstep _ rfl).symm⟩⟩

/-- The intersection succeeds when every common label has one digest, and is then the set of the
common labels. -/
theorem intersect_eq_ok : intersect sha256 registry localOffer remoteOffer = .ok selected ↔
      (∀ entry ∈ localOffer.supported, DigestsAgree sha256 registry remoteOffer entry) ∧
        selected.members = commonLabels localOffer remoteOffer := by
  have hcommon : commonLabels localOffer remoteOffer = ∅ ∪
      {tag | (∃ entry ∈ localOffer.supported, entry.1 = tag) ∧
        (remoteOffer.supportedDigest tag).isSome = true} := by
    ext tag
    simp only [commonLabels, Option.isSome_iff_exists, FeatureOffer.supportedDigest_eq_some,
      Set.empty_union, Set.mem_ofPred_eq, Prod.exists, exists_and_right, exists_eq_right]
  rw [intersect, foldlM_intersectStep, OrdSet.members_empty, hcommon]

def Closed (registry : FeatureRegistry) (S : Set FeatureTag) : Prop :=
  ∀ tag ∈ S, ∃ definition, registry.get tag = some definition ∧
    ∀ dependency ∈ definition.dependencies, dependency ∈ S

variable (registry) in
/-- **The fixed point is the greatest closed set.** -/
theorem dependencyFixedPoint_isGreatest (selected : OrdSet FeatureTag) :
    IsGreatest {S | S ⊆ selected.members ∧ Closed registry S}
      (dependencyFixedPoint registry selected).members := by
  refine OrdSet.settle_isGreatest (P := fun S tag => ∃ definition,
    registry.get tag = some definition ∧ ∀ dependency ∈ definition.dependencies, dependency ∈ S)
    (fun s tag _ => ?_) (fun S T hST tag ⟨definition, hget, hdeps⟩ => ?_) _ selected
    (Nat.lt_succ_self _)
  · rw [supportedBy, Option.any_eq_true]
    simp only [List.all_eq_true]
    rfl
  · exact ⟨definition, hget, fun dependency hdep => hST (hdeps dependency hdep)⟩

def ConflictFree (registry : FeatureRegistry) (S : Set FeatureTag) : Prop :=
  ∀ tag ∈ S, ∃ definition, registry.get tag = some definition ∧
    ∀ conflict ∈ definition.conflicts, conflict ∉ S

lemma rejectConflicts_eq_ok :
    rejectConflicts registry selected = .ok () ↔ ConflictFree registry selected.members := by
  rw [rejectConflicts, forM_eq_ok]
  refine forall_congr' fun tag => imp_congr OrdSet.mem_keys ?_
  rw [bind_ok_iff]
  refine exists_congr fun definition => and_congr orError_eq_ok ?_
  rw [forM_eq_ok]
  refine forall_congr' fun conflict => forall_congr' fun _ => ?_
  rw [ensure_eq_ok, OrdSet.mem_members, Bool.not_eq_true]

lemma checkRequired_eq_ok {required : OrdSet FeatureTag} :
    checkRequired registry selected required = .ok () ↔
      ∀ tag ∈ required.members, (registry.get tag).isSome = true ∧ tag ∈ selected.members := by
  rw [checkRequired, forM_eq_ok]
  refine forall_congr' fun tag => imp_congr OrdSet.mem_keys ?_
  rw [ensure_bind_eq_ok, ensure_eq_ok, OrdSet.mem_members]

lemma exists_members_eq_commonLabels (a b : FeatureOffer) :
    ∃ selected : OrdSet FeatureTag, selected.members = commonLabels a b := by
  refine ⟨((a.supported.map Prod.fst).filter fun tag => (b.supportedDigest tag).isSome).foldl
    OrdSet.add .empty, ?_⟩
  rw [OrdSet.members_foldl_add, OrdSet.members_empty, Set.empty_union]
  ext tag
  simp only [commonLabels, Option.isSome_iff_exists, FeatureOffer.supportedDigest_eq_some,
    Set.mem_ofPred_eq, List.mem_filter, List.mem_map, Prod.exists, exists_and_right,
      exists_eq_right]

structure Selects (sha256 : Hash) (registry : FeatureRegistry)
    (localOffer remoteOffer : FeatureOffer)
    (required : Set FeatureTag) (selection : Selection) : Prop where
  digests : ∀ entry ∈ localOffer.supported, DigestsAgree sha256 registry remoteOffer entry
  sorted : selection.features.Pairwise (· < ·)
  greatest : IsGreatest {S | S ⊆ commonLabels localOffer remoteOffer ∧ Closed registry S}
    {tag | tag ∈ selection.features}
  conflictFree : ConflictFree registry {tag | tag ∈ selection.features}
  required : required ⊆ {tag | tag ∈ selection.features}
  bytes : encodeCanonical selectionCodec (selection.features.map fun tag => tag.tag.value)
    controlCborLimits = .ok selection.bytes

lemma eq_of_pairwise_of_mem {l m : List FeatureTag} (hl : l.Pairwise (· < ·))
    (hm : m.Pairwise (· < ·)) (h : ∀ tag, tag ∈ l ↔ tag ∈ m) : l = m := by
  have hperm : l.Perm m :=
    (List.perm_ext_iff_of_nodup (hl.imp ne_of_lt) (hm.imp ne_of_lt)).mpr h
  exact hperm.eq_of_pairwise (fun a b _ _ hab hba => absurd (hab.trans hba) (lt_irrefl a)) hl hm

/-- **When the selection succeeds, and with what.** -/
theorem select_eq_ok {localRequired remoteRequired : List FeatureTag} {selection : Selection} :
    select sha256 registry localOffer remoteOffer localRequired remoteRequired = .ok selection ↔
      Selects sha256 registry localOffer remoteOffer {tag | tag ∈ localRequired ++ remoteRequired}
        selection := by
  rw [select, bind_ok_iff]
  constructor
  · rintro ⟨selected, hselected, h⟩
    obtain ⟨hdigests, hmembers⟩ := intersect_eq_ok.mp hselected
    obtain ⟨⟨⟩, hconflicts, h⟩ := bind_ok_iff.mp h
    obtain ⟨⟨⟩, hrequired, h⟩ := bind_ok_iff.mp h
    obtain ⟨bytes, hbytes, h⟩ := bind_ok_iff.mp h
    obtain rfl := Except.ok.inj h
    have hkeys : {tag | tag ∈ (dependencyFixedPoint registry selected).keys} =
        (dependencyFixedPoint registry selected).members := Set.ext fun _ => OrdSet.mem_keys
    have hgreatest := dependencyFixedPoint_isGreatest registry selected
    rw [hmembers] at hgreatest
    refine ⟨hdigests, OrdSet.pairwise_keys _, ?_, ?_, ?_, replaceError_eq_ok.mp hbytes⟩
    · exact hkeys ▸ hgreatest
    · exact hkeys ▸ rejectConflicts_eq_ok.mp hconflicts
    · intro tag htag
      rw [hkeys]
      refine (checkRequired_eq_ok.mp hrequired tag ?_).2
      rw [OrdSet.members_foldl_add]
      exact .inr htag
  · rintro ⟨hdigests, hsorted, hgreatest, hconflicts, hrequired, hbytes⟩
    obtain ⟨selected, hselected⟩ := exists_members_eq_commonLabels localOffer remoteOffer
    have hfixed := dependencyFixedPoint_isGreatest registry selected
    rw [hselected] at hfixed
    have hmembers : (dependencyFixedPoint registry selected).members =
        {tag | tag ∈ selection.features} := hfixed.unique hgreatest
    have hkeys : (dependencyFixedPoint registry selected).keys = selection.features :=
      eq_of_pairwise_of_mem (OrdSet.pairwise_keys _) hsorted fun tag =>
        OrdSet.mem_keys.trans (Set.ext_iff.mp hmembers tag)
    refine ⟨selected, intersect_eq_ok.mpr ⟨hdigests, hselected⟩, bind_ok_iff.mpr ⟨(), ?_,
      bind_ok_iff.mpr ⟨(), ?_, bind_ok_iff.mpr ⟨selection.bytes, ?_, ?_⟩⟩⟩⟩
    · rw [rejectConflicts_eq_ok, hmembers]
      exact hconflicts
    · refine checkRequired_eq_ok.mpr fun tag htag => ?_
      rw [OrdSet.members_foldl_add, OrdSet.members_empty, Set.empty_union] at htag
      have hin := hrequired htag
      obtain ⟨definition, hget, -⟩ := hgreatest.1.2 tag hin
      rw [hget, hmembers]
      exact ⟨rfl, hin⟩
    · rw [replaceError_eq_ok, hkeys]
      exact hbytes
    · rw [hkeys]
      rfl

end Steps

end Radiata.Protocol
