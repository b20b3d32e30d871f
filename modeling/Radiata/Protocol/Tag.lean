import Radiata.Error
import Radiata.Lib.Text

/-!
# Qualified tags

A tag is `<domain>/<category>/<name>` or `<domain>/<category>/<version>/<name>`: a
canonical host name, two name components, and an optional `v` followed by digits.
Nothing is normalised away: an accepted text is its own canonical text, so a tag and
its text determine each other.
-/

namespace Radiata.Protocol

open Lib

def minTagLen : ℕ := 5
def maxTagLen : ℕ := 128
def maxComponentLen : ℕ := 63
def maxHostnameLabelLen : ℕ := 63
def maxDnsNameLen : ℕ := 253

def builtinDomain : Text := "radiata.woooo.tech".toList
def categoryCrypto : Text := "crypto".toList
def categoryFeatures : Text := "features".toList
def categoryLabels : Text := "labels".toList
def categoryProtocols : Text := "protocols".toList
def categoryResources : Text := "resources".toList

def validLdhLabel (label : Text) : Bool :=
  utf8Len label ≤ maxHostnameLabelLen && label.head?.any Char.isAlphanum &&
    label.getLast?.any Char.isAlphanum && label.all fun c => c.isAlphanum || c == '-'

def validDnsHostname (host : Text) : Bool :=
  !(host.isEmpty || host.getLast? == some '.') && !host.any Char.isUpper &&
    utf8Len host ≤ maxDnsNameLen && (host.splitOn '.').all validLdhLabel

def validNameComponent (component : Text) : Bool :=
  !component.isEmpty && utf8Len component ≤ maxComponentLen &&
    component.head?.any Char.isLower && component.getLast?.any Char.isAlphanum &&
    component.all fun c => c.isLower || c.isDigit || c == '-'

def validVersionComponent (component : Text) : Bool :=
  2 ≤ utf8Len component && utf8Len component ≤ maxComponentLen && component.head? == some 'v' &&
    component.tail.all Char.isDigit

def validateTail (domain category third : Text) : Option Text → Result (Option ℕ)
  | some name => do
      require (validVersionComponent third ∧ validNameComponent name)
        (.invalidInput "qualified tag")
      pure (some (domain.length + 1 + category.length + 1 + third.length))
  | none => do
      require (validNameComponent third) (.invalidInput "qualified tag")
      pure none

def validateTag (value : Text) : Result (Text × ℕ × ℕ × Option ℕ) := do
  require (minTagLen ≤ utf8Len value ∧ utf8Len value ≤ maxTagLen ∧ value.all fun c => c.toNat < 128)
    (.invalidInput "qualified tag")
  match value.splitOn '/' with
  | domain :: category :: third :: rest => do
      require (rest.tail = [] ∧ validDnsHostname domain ∧ validNameComponent category)
        (.invalidInput "qualified tag")
      let versionEnd ← validateTail domain category third rest.head?
      let lowered := domain.map Char.toLower
      require (¬(lowered = builtinDomain ∧ category = categoryCrypto))
        (.invalidInput "qualified tag")
      pure (lowered ++ value.drop lowered.length, lowered.length,
        lowered.length + 1 + category.length, versionEnd)
  | _ => throw (.invalidInput "qualified tag")

structure Segments (value domain category third : Text) (rest : List Text) : Prop where
  split : value.splitOn '/' = domain :: category :: third :: rest
  tail : rest.tail = []
  domain_valid : validDnsHostname domain = true
  category_valid : validNameComponent category = true
  third_valid : (validNameComponent third || validVersionComponent third) = true
  rest_valid : ∀ name ∈ rest, validNameComponent name = true

lemma validateTail_ok {domain category third : Text} {fourth : Option Text} {stop : Option ℕ}
    (h : validateTail domain category third fourth = .ok stop) :
    (validNameComponent third || validVersionComponent third) = true ∧
      ∀ name ∈ fourth, validNameComponent name = true := by
  cases fourth with
  | none =>
    have hname := (require_bind_eq_ok.mp h).1
    exact ⟨by rw [hname, Bool.true_or], by simp⟩
  | some name =>
    obtain ⟨hversion, hname⟩ := (require_bind_eq_ok.mp h).1
    exact ⟨by rw [hversion, Bool.or_true], by simpa using hname⟩

lemma map_toLower_of_validDnsHostname {host : Text} (h : validDnsHostname host = true) :
    host.map Char.toLower = host := by
  have hupper : host.any Char.isUpper = false := by
    simp only [validDnsHostname, Bool.and_eq_true, Bool.not_eq_true'] at h
    exact h.1.1.2
  rw [List.any_eq_false] at hupper
  refine (List.map_congr_left fun c hc => ?_).trans (List.map_id host)
  have hc := hupper c hc
  simp only [Char.isUpper, decide_eq_true_eq, not_and] at hc
  rw [Char.toLower, dif_neg (by simpa using hc), id_eq]

lemma validateTag_ok {value canonical : Text} {d c : ℕ} {v : Option ℕ}
    (h : validateTag value = .ok (canonical, d, c, v)) :
    canonical = value ∧ ∃ domain category third rest,
      Segments value domain category third rest := by
  have h := (require_bind_eq_ok.mp h).2
  split at h
  case h_2 => cases h
  case h_1 domain category third rest hsplit =>
    obtain ⟨⟨htl, hdomain, hcategory⟩, h⟩ := require_bind_eq_ok.mp h
    obtain ⟨versionEnd, htail, h⟩ := bind_eq_ok.mp h
    have h := (require_bind_eq_ok.mp h).2
    obtain ⟨hthird, hrest⟩ := validateTail_ok htail
    have hjoin : ['/'].intercalate (value.splitOn '/') = value := List.intercalate_splitOn '/'
    rw [hsplit] at hjoin
    refine ⟨?_, domain, category, third, rest, hsplit, htl, hdomain, hcategory, hthird, ?_⟩
    · have hvalue : domain ++ value.drop domain.length = value := by
        rw [← hjoin]
        simp [List.intercalate]
      rw [map_toLower_of_validDnsHostname hdomain, hvalue] at h
      exact (Prod.mk.inj (Except.ok.inj h)).1.symm
    · intro name hname
      cases rest with
      | nil => exact absurd hname List.not_mem_nil
      | cons first others =>
        obtain rfl : others = [] := htl
        obtain rfl := List.mem_singleton.mp hname
        exact hrest name rfl

lemma validateTag_of_split {value domain category name : Text}
    (hbounds : minTagLen ≤ utf8Len value ∧ utf8Len value ≤ maxTagLen ∧
      (value.all fun c => c.toNat < 128) = true)
    (hsplit : value.splitOn '/' = [domain, category, name])
    (hdomain : validDnsHostname domain = true)
    (hcategory : validNameComponent category = true) (hname : validNameComponent name = true)
    (hcrypto : category ≠ categoryCrypto) :
    validateTag value = .ok (value, domain.length, domain.length + 1 + category.length, none) := by
  have hjoin : ['/'].intercalate (value.splitOn '/') = value := List.intercalate_splitOn '/'
  rw [hsplit] at hjoin
  have hvalue : domain ++ value.drop domain.length = value := by
    rw [← hjoin]
    simp [List.intercalate]
  have htail : validateTail domain category name none = .ok none :=
    require_bind_eq_ok.mpr ⟨hname, rfl⟩
  unfold validateTag
  refine require_bind_eq_ok.mpr ⟨hbounds, ?_⟩
  rw [hsplit]
  refine require_bind_eq_ok.mpr ⟨⟨rfl, hdomain, hcategory⟩, ?_⟩
  refine bind_eq_ok.mpr ⟨none, htail, ?_⟩
  refine require_bind_eq_ok.mpr ⟨fun h => hcrypto h.2, ?_⟩
  rw [map_toLower_of_validDnsHostname hdomain, hvalue]
  rfl

/-! ## The characters of a tag -/

def isTagChar (c : Char) : Bool := c.isLower || c.isDigit || c == '-' || c == '.' || c == '/'

lemma mem_intercalate_singleton {α : Type*} {sep x : α} {parts : List (List α)}
    (h : x ∈ [sep].intercalate parts) : x = sep ∨ ∃ part ∈ parts, x ∈ part := by
  induction parts with
  | nil => simp [List.intercalate] at h
  | cons part parts ih =>
    cases parts with
    | nil => exact Or.inr ⟨part, List.mem_cons_self, by simpa [List.intercalate] using h⟩
    | cons next parts =>
      have hsplit : [sep].intercalate (part :: next :: parts) =
          part ++ sep :: [sep].intercalate (next :: parts) := by simp [List.intercalate]
      rw [hsplit, List.mem_append, List.mem_cons] at h
      rcases h with h | h | h
      · exact Or.inr ⟨part, List.mem_cons_self, h⟩
      · exact Or.inl h
      · exact (ih h).imp_right fun ⟨p, hp, hx⟩ => ⟨p, List.mem_cons_of_mem _ hp, hx⟩

lemma mem_splitOn_or {α : Type*} [DecidableEq α] (sep : α) {x : α} {l : List α} (h : x ∈ l) :
    x = sep ∨ ∃ part ∈ l.splitOn sep, x ∈ part :=
  mem_intercalate_singleton (by rwa [List.intercalate_splitOn])

variable {c : Char}

lemma isTagChar_of_name {component : Text} (h : validNameComponent component = true)
    (hc : c ∈ component) : isTagChar c = true := by
  simp only [validNameComponent, Bool.and_eq_true, List.all_eq_true] at h
  have := h.2 c hc
  simp only [isTagChar, Bool.or_eq_true] at this ⊢
  tauto

lemma isTagChar_of_version {component : Text} (h : validVersionComponent component = true)
    (hc : c ∈ component) : isTagChar c = true := by
  simp only [validVersionComponent, Bool.and_eq_true, List.all_eq_true, beq_iff_eq] at h
  cases component with
  | nil => exact absurd hc List.not_mem_nil
  | cons first rest =>
    rcases List.mem_cons.mp hc with rfl | hc
    · obtain rfl : c = 'v' := Option.some.inj h.1.2
      decide
    · have := h.2 c hc
      simp only [isTagChar, Bool.or_eq_true]
      tauto

lemma isTagChar_of_host {host : Text} (h : validDnsHostname host = true) (hc : c ∈ host) :
    isTagChar c = true := by
  simp only [validDnsHostname, Bool.and_eq_true, List.all_eq_true, Bool.not_eq_true',
    List.any_eq_false] at h
  rcases mem_splitOn_or '.' hc with rfl | ⟨label, hlabel, hcl⟩
  · decide
  · have hldh := h.2 label hlabel
    simp only [validLdhLabel, Bool.and_eq_true, List.all_eq_true] at hldh
    have hchar := hldh.2 c hcl
    have hupper := h.1.1.2 c hc
    simp only [Char.isAlphanum, Char.isAlpha, Bool.or_eq_true] at hchar
    simp only [isTagChar, Bool.or_eq_true]
    tauto

lemma Segments.isTagChar {value domain category third : Text} {rest : List Text}
    (h : Segments value domain category third rest) (hc : c ∈ value) : isTagChar c = true := by
  rcases mem_splitOn_or '/' hc with rfl | ⟨part, hpart, hcp⟩
  · decide
  rw [h.split] at hpart
  simp only [List.mem_cons] at hpart
  rcases hpart with rfl | rfl | rfl | hpart
  · exact isTagChar_of_host h.domain_valid hcp
  · exact isTagChar_of_name h.category_valid hcp
  · rcases Bool.or_eq_true_iff.mp h.third_valid with hname | hversion
    · exact isTagChar_of_name hname hcp
    · exact isTagChar_of_version hversion hcp
  · exact isTagChar_of_name (h.rest_valid part hpart) hcp

lemma Segments.slash_mem {value domain category third : Text} {rest : List Text}
    (h : Segments value domain category third rest) : '/' ∈ value := by
  by_contra hnot
  have hjoin : ['/'].intercalate (value.splitOn '/') = value := List.intercalate_splitOn '/'
  rw [h.split] at hjoin
  apply hnot
  rw [← hjoin]
  simp [List.intercalate]

structure QualifiedTag where
  value : Text
  domainEnd : ℕ
  categoryEnd : ℕ
  versionEnd : Option ℕ
  valid : validateTag value = .ok (value, domainEnd, categoryEnd, versionEnd)
deriving DecidableEq

namespace QualifiedTag

def parse (value : Text) : Result QualifiedTag :=
  match h : validateTag value with
  | .ok (canonical, domainEnd, categoryEnd, versionEnd) =>
    .ok ⟨canonical, domainEnd, categoryEnd, versionEnd, by
      obtain rfl := (validateTag_ok h).1
      exact h⟩
  | .error e => .error e

def category (tag : QualifiedTag) : Text :=
  (tag.value.take tag.categoryEnd).drop (tag.domainEnd + 1)

variable (tag : QualifiedTag)

lemma parse_value : parse tag.value = .ok tag := by
  unfold parse
  split
  case h_1 canonical d c v h =>
    have heq := tag.valid.symm.trans h
    obtain ⟨value, domainEnd, categoryEnd, versionEnd, valid⟩ := tag
    simp only [Except.ok.injEq, Prod.mk.injEq] at heq
    obtain ⟨rfl, rfl, rfl, rfl⟩ := heq
    rfl
  case h_2 e h => exact absurd (tag.valid.symm.trans h) (by simp)

lemma value_of_parse {value : Text} {tag : QualifiedTag} (h : parse value = .ok tag) :
    tag.value = value := by
  unfold parse at h
  split at h
  case h_1 canonical d c v hv =>
    obtain rfl := Except.ok.inj h
    exact (validateTag_ok hv).1
  case h_2 => cases h

lemma ext_value {a b : QualifiedTag} (h : a.value = b.value) : a = b := by
  have ha := parse_value a
  rw [h, parse_value b] at ha
  exact (Except.ok.inj ha).symm

lemma isTagChar_of_mem (hc : c ∈ tag.value) : isTagChar c = true := by
  obtain ⟨-, _, _, _, _, hseg⟩ := validateTag_ok tag.valid
  exact hseg.isTagChar hc

lemma slash_mem : '/' ∈ tag.value := by
  obtain ⟨-, _, _, _, _, hseg⟩ := validateTag_ok tag.valid
  exact hseg.slash_mem

end QualifiedTag

structure CategoryTag (category : Text) where
  tag : QualifiedTag
  valid : tag.category = category
deriving DecidableEq

namespace CategoryTag

variable {category : Text}

def parse (category : Text) (context : String) (value : Text) : Result (CategoryTag category) := do
  let tag ← QualifiedTag.parse value
  if h : tag.category = category then pure ⟨tag, h⟩ else throw (.invalidInput context)

lemma parse_value (tag : CategoryTag category) (context : String) :
    parse category context tag.tag.value = .ok tag := by
  rw [parse, QualifiedTag.parse_value, ok_bind, dif_pos tag.valid]
  rfl

lemma value_injective : Function.Injective fun tag : CategoryTag category => tag.tag.value := by
  rintro ⟨a, ha⟩ ⟨b, hb⟩ h
  obtain rfl := QualifiedTag.ext_value h
  rfl

/-- Tags are ordered by their text. -/
instance : LinearOrder (CategoryTag category) := LinearOrder.lift' _ value_injective

end CategoryTag

abbrev FeatureTag := CategoryTag categoryFeatures
abbrev ProtocolTag := CategoryTag categoryProtocols

def FeatureTag.parse : Text → Result FeatureTag := CategoryTag.parse _ "feature tag"
def ProtocolTag.parse : Text → Result ProtocolTag := CategoryTag.parse _ "protocol tag"

end Radiata.Protocol
