import Radiata.Lib.OrdMap
import Radiata.Protocol.Signature
import Radiata.Protocol.Tag

/-!
# Feature definitions and the registry

A feature definition is the contract behind one feature label: its fingerprint, the labels
it depends on, the labels it conflicts with, and the protocols it owns.  Its digest covers
the canonical record, in which the three lists are sorted; two definitions of one record
agree in everything a negotiation reads.

The registry is a closed set of definitions.  Building one inserts them by label and then
checks the graph: dependencies are present and acyclic, conflicts are symmetric, and no
protocol has two owners.  The order in which the definitions are supplied does not matter.
-/

namespace Radiata.Protocol

open Lib Lib.Cbor Reconcile Relation

def authEd25519Session : Text := "radiata.woooo.tech/features/auth-ed25519-session".toList
def sessionCore : Text := "radiata.woooo.tech/features/session-core".toList

def definitionLimits : CborLimits := ⟨16, 1024, maxBodyBytes⟩

/-! ## Definitions -/

structure FeatureDefinition where
  tag : FeatureTag
  fingerprint : Digest
  dependencies : List FeatureTag
  conflicts : List FeatureTag
  protocols : List ProtocolTag
  dependencies_valid : tag ∉ dependencies ∧ dependencies.Nodup
  conflicts_valid : tag ∉ conflicts ∧ conflicts.Nodup
  protocols_valid : protocols.Nodup

namespace FeatureDefinition

def new (tag : FeatureTag) (fingerprint : Digest) : FeatureDefinition where
  tag := tag
  fingerprint := fingerprint
  dependencies := []
  conflicts := []
  protocols := []
  dependencies_valid := ⟨List.not_mem_nil, List.nodup_nil⟩
  conflicts_valid := ⟨List.not_mem_nil, List.nodup_nil⟩
  protocols_valid := List.nodup_nil

lemma nodup_concat {α : Type} {a : α} {l : List α} (h : l.Nodup) (ha : a ∉ l) :
    (l ++ [a]).Nodup := by
  refine List.nodup_append'.mpr ⟨h, List.nodup_singleton a, ?_⟩
  exact List.disjoint_singleton.mpr ha

def dependency (d : FeatureDefinition) (tag : FeatureTag) : Result FeatureDefinition :=
  if hself : tag = d.tag then .error (.invalidInput "feature dependency self")
  else if hdup : tag ∈ d.dependencies then .error (.invalidInput "feature dependency duplicate")
  else .ok { d with
    dependencies := d.dependencies ++ [tag]
    dependencies_valid :=
      ⟨by simpa [d.dependencies_valid.1] using Ne.symm hself,
        nodup_concat d.dependencies_valid.2 hdup⟩ }

end FeatureDefinition

def sortedTexts {category : Text} (tags : List (CategoryTag category)) : List Text :=
  (tags.map fun tag => tag.tag.value).insertionSort (· ≤ ·)

lemma mem_sortedTexts {category : Text} {tags : List (CategoryTag category)}
    {tag : CategoryTag category} : tag.tag.value ∈ sortedTexts tags ↔ tag ∈ tags := by
  rw [sortedTexts, List.mem_insertionSort]
  exact List.mem_map_of_injective CategoryTag.value_injective

abbrev DefinitionWire := Text × List UInt8 × List Text × List Text × List Text

def definitionCodec : Codec DefinitionWire :=
  .array (.cons .chars (.cons .byteVec (.cons Codec.chars.vec (.cons Codec.chars.vec
    (.last Codec.chars.vec)))))

namespace FeatureDefinition

def wire (d : FeatureDefinition) : DefinitionWire :=
  (d.tag.tag.value, d.fingerprint.toList, sortedTexts d.dependencies, sortedTexts d.conflicts,
    sortedTexts d.protocols)

def encode (d : FeatureDefinition) : Result (List UInt8) :=
  encodeCanonical definitionCodec d.wire definitionLimits

def definitionDigest (sha256 : Hash) (d : FeatureDefinition) : Result Digest := do
  let bytes ← d.encode
  pure (bodyDigest sha256 bytes)

/-- Two definitions of one canonical record have the same label, and the same labels in each
of their lists. -/
structure Agree (d e : FeatureDefinition) : Prop where
  tag : d.tag = e.tag
  dependencies : ∀ tag, tag ∈ d.dependencies ↔ tag ∈ e.dependencies
  conflicts : ∀ tag, tag ∈ d.conflicts ↔ tag ∈ e.conflicts

lemma Agree.of_encode {d e : FeatureDefinition} {bytes : List UInt8} (hd : d.encode = .ok bytes)
    (he : e.encode = .ok bytes) : d.Agree e := by
  have hwire : d.wire = e.wire := Except.ok.inj
    ((decodeCanonicalStrict_of_encode "" hd).symm.trans (decodeCanonicalStrict_of_encode "" he))
  obtain ⟨htag, -, hdependencies, hconflicts, -⟩ :
      d.tag.tag.value = e.tag.tag.value ∧ d.fingerprint.toList = e.fingerprint.toList ∧
        sortedTexts d.dependencies = sortedTexts e.dependencies ∧
        sortedTexts d.conflicts = sortedTexts e.conflicts ∧
        sortedTexts d.protocols = sortedTexts e.protocols := by
    simpa only [wire, Prod.mk.injEq] using hwire
  refine ⟨CategoryTag.value_injective htag, fun tag => ?_, fun tag => ?_⟩
  · rw [← mem_sortedTexts, hdependencies, mem_sortedTexts]
  · rw [← mem_sortedTexts, hconflicts, mem_sortedTexts]

end FeatureDefinition

/-! ## The registry -/

structure FeatureRegistry where
  definitions : OrdMap FeatureTag FeatureDefinition
  keyed : ∀ entry ∈ definitions, entry.2.tag = entry.1

namespace FeatureRegistry

variable (registry : FeatureRegistry)

def get (tag : FeatureTag) : Option FeatureDefinition := registry.definitions.get? tag

variable {tag : FeatureTag} {d : FeatureDefinition}

def empty : FeatureRegistry := ⟨.empty, fun entry h => absurd h (OrdMap.not_mem_empty entry)⟩

def insert (d : FeatureDefinition) : FeatureRegistry where
  definitions := registry.definitions.insert d.tag d
  keyed entry h := by
    rcases OrdMap.mem_insert.mp h with rfl | ⟨hold, -⟩
    · rfl
    · exact registry.keyed entry hold

def insertAll : FeatureRegistry → List FeatureDefinition → Result FeatureRegistry
  | registry, [] => .ok registry
  | registry, d :: ds =>
    if (registry.get d.tag).isSome then .error (.invalidInput "feature registry duplicate label")
    else insertAll (registry.insert d) ds

inductive Mark where
  | visiting
  | done
deriving DecidableEq

/-- Walks the dependencies of one label.  Every call below the first marks a registered label
that was not marked before, so the depth stays within the number of definitions. -/
def visit (definitions : OrdMap FeatureTag FeatureDefinition) :
    ℕ → FeatureTag → OrdMap FeatureTag Mark → Result (OrdMap FeatureTag Mark)
  | 0, _, _ => .error (.invalidInput "feature registry dependency cycle")
  | fuel + 1, tag, marks =>
    match marks.get? tag with
    | some .done => .ok marks
    | some .visiting => .error (.invalidInput "feature registry dependency cycle")
    | none => do
        let definition ← orInvalid (definitions.get? tag) "feature registry missing dependency"
        let marks ← definition.dependencies.foldlM
          (fun marks dependency => visit definitions fuel dependency marks)
          (marks.insert tag .visiting)
        pure (marks.insert tag .done)

/-- A result that succeeds exactly when `Q` holds, and then with `I`. -/
def Decides {β : Type} (I : β → Prop) (Q : Prop) : Result β → Prop
  | .ok b => Q ∧ I b
  | .error _ => ¬ Q

lemma foldlM_decides {α β : Type} {I : β → Prop} {Q : α → Prop} {f : β → α → Result β}
    {l : List α} (h : ∀ a ∈ l, ∀ b, I b → Decides I (Q a) (f b a)) {b : β} (hb : I b) :
    Decides I (∀ a ∈ l, Q a) (l.foldlM f b) := by
  induction l generalizing b with
  | nil => exact ⟨fun _ hmem => absurd hmem List.not_mem_nil, hb⟩
  | cons a l ih =>
    have hfirst := h a List.mem_cons_self b hb
    rw [List.foldlM_cons, List.forall_mem_cons]
    generalize f b a = first at hfirst
    cases first with
    | error e => exact fun hall => hfirst hall.1
    | ok next =>
      rw [and_iff_right hfirst.1]
      exact ih (fun a ha => h a (List.mem_cons_of_mem _ ha)) hfirst.2

section Dependencies

variable (definitions : OrdMap FeatureTag FeatureDefinition)

def DependsOn (dependency tag : FeatureTag) : Prop :=
  ∃ definition, definitions.get? tag = some definition ∧ dependency ∈ definition.dependencies

/-- A registered label whose dependencies resolve in turn: none is missing and none leads back. -/
inductive Resolves : FeatureTag → Prop
  | intro {tag : FeatureTag} (definition : FeatureDefinition)
      (found : definitions.get? tag = some definition)
      (below : ∀ dependency ∈ definition.dependencies, Resolves dependency) : Resolves tag

/-- The marks inside the walks of the labels in `path`. -/
structure Walking (path : List FeatureTag) (marks : OrdMap FeatureTag Mark) : Prop where
  done : ∀ t, (t, Mark.done) ∈ marks → Resolves definitions t
  visiting : ∀ t, (t, Mark.visiting) ∈ marks ↔ t ∈ path

variable {definitions} {tag : FeatureTag}

lemma Resolves.acyclic (h : Resolves definitions tag) : ¬ TransGen
    (DependsOn definitions) tag tag := by
  induction h with
  | intro _ found _ ih =>
    intro hcycle
    obtain ⟨d, hback, _, hget, hmem⟩ := TransGen.tail'_iff.mp hcycle
    obtain rfl := Option.some.inj (found.symm.trans hget)
    exact ih d hmem (.head' ⟨_, hget, hmem⟩ hback)

-- The labels of `path` are distinct and registered, so the depth does not run out.
lemma visit_decides (tag : FeatureTag) {fuel : ℕ} {path : List FeatureTag}
    {marks : OrdMap FeatureTag Mark} (hpath : ∀ t ∈ path, TransGen (DependsOn definitions) tag t)
    (hnodup : path.Nodup) (hkeys : path ⊆ definitions.keys)
    (hfuel : definitions.keys.length < fuel + path.length) (h : Walking definitions path marks) :
    Decides (Walking definitions path) (Resolves definitions tag)
      (visit definitions fuel tag marks) := by
  induction fuel generalizing tag path marks with
  | zero =>
    have hle := (hnodup.subperm hkeys).length_le
    omega
  | succ fuel ih =>
    unfold visit
    split
    case h_1 hmark => exact ⟨h.done tag (OrdMap.get?_eq_some.mp hmark), h⟩
    case h_2 hmark =>
      exact fun htag =>
        htag.acyclic (hpath tag ((h.visiting tag).mp (OrdMap.get?_eq_some.mp hmark)))
    case h_3 hmark =>
      have hout : tag ∉ path := fun htag => by
        cases hmark.symm.trans (OrdMap.get?_eq_some.mpr ((h.visiting tag).mpr htag))
      cases hget : definitions.get? tag with
      | none => exact fun ⟨_, found, _⟩ => by cases hget.symm.trans found
      | some definition =>
        have habove (d : FeatureTag) (hd : d ∈ definition.dependencies) :
            ∀ t ∈ tag :: path, TransGen (DependsOn definitions) d t :=
          List.forall_mem_cons.mpr
            ⟨.single ⟨_, hget, hd⟩, fun t ht => .head ⟨_, hget, hd⟩ (hpath t ht)⟩
        have hstart : Walking definitions (tag :: path) (marks.insert tag .visiting) := by
          refine ⟨by simpa [OrdMap.mem_insert] using fun t ht _ => h.done t ht, fun t => ?_⟩
          rw [OrdMap.mem_insert, h.visiting]
          grind
        have hknown : tag :: path ⊆ definitions.keys :=
          List.cons_subset.mpr ⟨List.mem_map_of_mem (OrdMap.get?_eq_some.mp hget), hkeys⟩
        have hwalk := foldlM_decides (fun d hd m => ih d (habove d hd) (hnodup.cons hout) hknown
          (by rw [List.length_cons]; omega)) hstart
        rw [orInvalid_some, ok_bind]
        generalize (definition.dependencies.foldlM _ _ : Result _) = walked at hwalk ⊢
        cases walked with
        | error e =>
          refine fun ⟨_, found, below⟩ => hwalk ?_
          exact Option.some.inj (hget.symm.trans found) ▸ below
        | ok walked =>
          have htag : Resolves definitions tag := .intro definition hget hwalk.1
          refine ⟨htag, fun t ht => ?_, fun t => ?_⟩
          · obtain heq | ⟨hold, -⟩ := OrdMap.mem_insert.mp ht
            · exact (Prod.mk.inj heq).1 ▸ htag
            · exact hwalk.2.done t hold
          · rw [OrdMap.mem_insert, hwalk.2.visiting]
            grind

end Dependencies

def checkDependencies : Result Unit := do
  let _ ← registry.definitions.keys.foldlM
    (fun marks tag => visit registry.definitions (registry.definitions.keys.length + 1) tag marks)
    .empty
  pure ()

/-- **A registry passes the dependency check exactly when every dependency is registered and no
feature depends on itself, at any depth.** -/
theorem checkDependencies_eq_ok :
    registry.checkDependencies = .ok () ↔
      ∀ tag ∈ registry.definitions.keys, Resolves registry.definitions tag := by
  have hwalk := foldlM_decides (l := registry.definitions.keys)
    (fun tag _ marks => visit_decides tag (List.forall_mem_nil _) .nil (List.nil_subset _)
      (Nat.lt_add_one _)) (⟨by simp, by simp⟩ : Walking registry.definitions [] .empty)
  unfold checkDependencies
  generalize (registry.definitions.keys.foldlM _ _ : Result _) = walked at hwalk ⊢
  cases walked with
  | error e => exact ⟨nofun, (absurd · hwalk)⟩
  | ok marks => exact ⟨fun _ => hwalk.1, fun _ => rfl⟩

def checkConflict (definition : FeatureDefinition) (conflict : FeatureTag) : Result Unit := do
  require (conflict ≠ definition.tag) (.invalidInput "feature registry self conflict")
  let other ← orInvalid (registry.get conflict) "feature registry asymmetric conflict"
  require (definition.tag ∈ other.conflicts) (.invalidInput "feature registry asymmetric conflict")

def checkConflicts : Result Unit :=
  forM registry.definitions.entries fun entry =>
    forM entry.2.conflicts (registry.checkConflict entry.2)

def checkUniqueOwnership : Result Unit :=
  require (registry.definitions.entries.flatMap fun entry => entry.2.protocols).Nodup
    (.invalidInput "feature registry duplicate protocol owner")

def build (definitions : List FeatureDefinition) : Result FeatureRegistry := do
  let registry ← insertAll empty definitions
  registry.checkDependencies
  registry.checkConflicts
  registry.checkUniqueOwnership
  pure registry

variable {registry}

lemma ext_get {a b : FeatureRegistry} (h : ∀ tag, a.get tag = b.get tag) : a = b := by
  obtain ⟨a, ha⟩ := a
  obtain ⟨b, hb⟩ := b
  obtain rfl : a = b := OrdMap.ext_get? h
  rfl

lemma get_insert_self (d : FeatureDefinition) : (registry.insert d).get d.tag = some d :=
  OrdMap.get?_insert_self

lemma get_insert_of_ne (h : tag ≠ d.tag) :
    (registry.insert d).get tag = registry.get tag := OrdMap.get?_insert_of_ne h

lemma insert_comm {e : FeatureDefinition} (h : d.tag ≠ e.tag) :
    (registry.insert d).insert e = (registry.insert e).insert d := by
  refine ext_get fun tag => ?_
  by_cases hd : tag = d.tag
  · subst hd
    rw [get_insert_of_ne h, get_insert_self, get_insert_self]
  · by_cases he : tag = e.tag
    · subst he
      rw [get_insert_self, get_insert_of_ne hd, get_insert_self]
    · rw [get_insert_of_ne he, get_insert_of_ne hd, get_insert_of_ne hd, get_insert_of_ne he]

variable {ds es : List FeatureDefinition}

lemma insertAll_perm (h : ds.Perm es) (registry : FeatureRegistry) :
    insertAll registry ds = insertAll registry es := by
  induction h generalizing registry with
  | nil => rfl
  | cons d _ ih =>
    unfold insertAll
    rw [ih]
  | swap d e l =>
    simp only [insertAll]
    by_cases htag : d.tag = e.tag
    · have hdup (x y : FeatureDefinition) (hxy : x.tag = y.tag) :
          ((registry.insert x).get y.tag).isSome = true := by
        rw [← hxy, get_insert_self]
        rfl
      rw [if_pos (hdup e d htag.symm), if_pos (hdup d e htag), htag]
    · rw [get_insert_of_ne htag, get_insert_of_ne (Ne.symm htag), insert_comm htag]
      split_ifs <;> rfl
  | trans _ _ ih ih' => exact (ih registry).trans (ih' registry)

lemma mem_of_insertAll {start : FeatureRegistry} (h : insertAll start ds = .ok registry)
    (hget : registry.get tag = some d) : start.get tag = some d ∨ d ∈ ds := by
  induction ds generalizing start with
  | nil =>
    obtain rfl := Except.ok.inj h
    exact .inl hget
  | cons e ds ih =>
    unfold insertAll at h
    split_ifs at h
    rcases ih h with hstart | hmem
    · by_cases htag : tag = e.tag
      · subst htag
        rw [get_insert_self] at hstart
        exact .inr (Option.some.inj hstart ▸ List.mem_cons_self)
      · rw [get_insert_of_ne htag] at hstart
        exact .inl hstart
    · exact .inr (List.mem_cons_of_mem _ hmem)

lemma mem_of_build (h : build ds = .ok registry) (hget : registry.get tag = some d) : d ∈ ds := by
  obtain ⟨built, hbuilt, h⟩ := bind_eq_ok.mp h
  obtain ⟨-, -, h⟩ := bind_eq_ok.mp h
  obtain ⟨-, -, h⟩ := bind_eq_ok.mp h
  obtain ⟨-, -, h⟩ := bind_eq_ok.mp h
  obtain rfl := Except.ok.inj h
  rcases mem_of_insertAll hbuilt hget with hempty | hmem
  · exact absurd (OrdMap.get?_eq_some.mp hempty) (OrdMap.not_mem_empty _)
  · exact hmem

/-- **The order in which definitions are supplied does not matter.** -/
theorem build_perm (h : ds.Perm es) : build ds = build es := by
  unfold build
  rw [insertAll_perm h]

end FeatureRegistry

end Radiata.Protocol
