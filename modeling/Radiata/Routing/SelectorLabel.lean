import Radiata.Routing.SelectorCanonical

/-!
# Which label values a selector can address

The escaper protects space, tab, line feed and carriage return; the tokenizer stops at
every Unicode white space.  A value is addressable exactly when the two agree on it.
The negative half does not depend on the text at all: every value a parsed predicate
mentions is `Escapable`, and a selector can only tell a value from a fresh one by
mentioning it.
-/

namespace Radiata.Routing

open Lib Protocol

def single (key : QualifiedTag) (value : Text) : Lookup :=
  fun k => if k = key then some value else none

@[simp] lemma single_self (key : QualifiedTag) (value : Text) : single key value key = some value :=
  if_pos rfl

lemma single_of_ne {key k : QualifiedTag} (h : k ≠ key) (value : Text) : single key value k =
    none :=
  if_neg h

def Addresses (text : Text) (key : QualifiedTag) (accept : Option Text → Prop) : Prop :=
  ∃ sel, Selector.parse text = .ok sel ∧
    ∀ lookup : Lookup, sel.matchesWith lookup = true ↔ accept (lookup key)

/-! ## What a predicate mentions -/

namespace Predicate

def values : Predicate → List Text
  | exist _ | notExists _ => []
  | equals _ value | notEquals _ value => [value]
  | isIn _ values | notIn _ values => values

def key : Predicate → QualifiedTag
  | exist key | notExists key | equals key _ | notEquals key _ | isIn key _ | notIn key _ => key

variable {lookup : Lookup}

lemma matches_congr (p : Predicate) {lookup' : Lookup} (h : lookup p.key = lookup' p.key) :
    p.matches lookup = p.matches lookup' := by
  cases p <;> simp only [key] at h <;> simp only [Predicate.matches, h]

variable {k : QualifiedTag} {v : Text}

lemma matches_equals : (equals k v).matches lookup = true ↔ lookup k = some v := by
  simp [Predicate.matches]

lemma matches_notEquals : (notEquals k v).matches lookup = true ↔ lookup k ≠ some v := by
  cases h : lookup k <;> simp [Predicate.matches, h]

lemma matches_isIn {vs : List Text} :
    (isIn k vs).matches lookup = true ↔ ∃ v ∈ vs, lookup k = some v := by
  cases h : lookup k <;> simp [Predicate.matches, h]

lemma matches_notIn {vs : List Text} :
    (notIn k vs).matches lookup = true ↔ ¬∃ v ∈ vs, lookup k = some v := by
  have hnot : (notIn k vs).matches lookup = !(isIn k vs).matches lookup := by
    cases h : lookup k <;> simp [Predicate.matches, h]
  rw [hnot, Bool.not_eq_true', ← matches_isIn, Bool.not_eq_true]

lemma matches_single_of_notMem {p : Predicate} {k : QualifiedTag} {v w : Text}
    (hv : v ∉ p.values) (hw : w ∉ p.values) :
    p.matches (single k v) = p.matches (single k w) := by
  by_cases hk : p.key = k
  · subst hk
    cases p with
    | exist k | notExists k => simp [Predicate.matches, key]
    | equals k u | notEquals k u =>
      have hv : (v == u) = false := beq_eq_false_iff_ne.mpr (by simpa [values] using hv)
      have hw : (w == u) = false := beq_eq_false_iff_ne.mpr (by simpa [values] using hw)
      simp [Predicate.matches, key, bne, hv, hw]
    | isIn k us | notIn k us =>
      have hany {u : Text} (hu : u ∉ us) : (us.any fun x => x == u) = false := by
        rw [List.any_eq_false]
        rintro x hx heq
        exact hu (beq_iff_eq.mp heq ▸ hx)
      simp [Predicate.matches, key, hany hv, hany hw]
  · refine p.matches_congr ?_
    rw [single_of_ne hk, single_of_ne hk]

lemma Spelled.escapable {p : Predicate} (h : p.Spelled) : ∀ v ∈ p.values, Escapable v := by
  obtain ⟨clause, -, rfl⟩ := h
  cases clause with
  | exist | notExists => exact fun _ hv => absurd hv List.not_mem_nil
  | compare negated key before after token =>
    cases negated <;>
    · intro v hv
      obtain rfl := List.mem_singleton.mp hv
      exact token.spells.escapable
  | member negated key before gap after items =>
    cases negated <;>
    · intro v hv
      obtain ⟨item, -, rfl⟩ := List.mem_map.mp hv
      exact item.token.spells.escapable

end Predicate

/-- **A selector that tells a value from all but finitely many others mentions it**, so
the value is escapable. -/
theorem escapable_of_parse {text : Text} {sel : Selector} (h : Selector.parse text = .ok sel)
    (key : QualifiedTag) (v : Text) (others : List Text)
    (hdiffer : ∀ w ∉ others, sel.matchesWith (single key v) ≠ sel.matchesWith (single key w)) :
    Escapable v := by
  obtain ⟨ps, hps, hmatches⟩ := Selector.matchesWith_of_parse h
  have hspelled := (spelled_of_parsePredicateStream hps).1
  obtain ⟨w, hw⟩ := Infinite.exists_notMem_finset (others ++ ps.flatMap Predicate.values).toFinset
  rw [List.mem_toFinset, List.mem_append, not_or] at hw
  by_contra hesc
  refine hdiffer w hw.1 ?_
  rw [hmatches, hmatches, Bool.eq_iff_iff, List.all_eq_true, List.all_eq_true]
  refine forall_congr' fun p => forall_congr' fun hp => ?_
  have hv : v ∉ p.values := fun hv => hesc ((hspelled p hp).escapable v hv)
  have hw : w ∉ p.values := fun hv => hw.2 (List.mem_flatMap.mpr ⟨p, hp, hv⟩)
  rw [Predicate.matches_single_of_notMem hv hw]

variable {accept : Option Text → Prop}

lemma Addresses.escapable {text : Text} {key : QualifiedTag} (h : Addresses text key accept)
    (v : Text) (others : List Text) (hdiffer : ∀ w ∉ others, ¬(accept (some v) ↔ accept (some w))) :
    Escapable v := by
  obtain ⟨sel, hparse, hmatches⟩ := h
  refine escapable_of_parse hparse key v others fun w hw heq => hdiffer w hw ?_
  have hv := hmatches (single key v)
  have hw := hmatches (single key w)
  rw [single_self] at hv hw
  rw [← hv, ← hw, heq]

/-! ## The positive half -/

variable {clause : Clause}

lemma Predicate.Spelled.of_clause (h : clause.Bounded) : clause.predicate.Spelled :=
  ⟨clause, h, rfl⟩

lemma Selector.parse_clause (hbounded : clause.Bounded)
    (hlen : utf8Len clause.text ≤ selectorInputMaxBytes)
    (hcanonical : utf8Len clause.predicate.canonical ≤ selectorInputMaxBytes) :
    ∃ sel, parse clause.text = .ok sel ∧
      ∀ lookup, sel.matchesWith lookup = clause.predicate.matches lookup := by
  have hwritten : Written [(clause, .none)] := by
    refine ⟨trivial, ?_, ?_⟩
    · simpa using hbounded
    · simp [selectorMaxPredicates]
  have hread : parsePredicateStream clause.text true = .ok [clause.predicate] := by
    simpa [spell, saying, Blanks.none] using hwritten.read .none
  have hspelled : ∀ p ∈ [clause.predicate], p.Spelled := by
    intro p hp
    rw [List.mem_singleton.mp hp]
    exact .of_clause hbounded
  have htext : canonicalText [clause.predicate] = clause.predicate.canonical := by
    simp [canonicalText, canon, List.intercalate]
  obtain ⟨rs, hrs, -, -⟩ := read_canonicalText hspelled
  have hne : clause.text ≠ [] := by
    intro hnil
    rw [hnil] at hread
    cases hread
  have hparse := parse_eq_ok.mpr ⟨⟨hne, hlen⟩, _, hread, by simp, by rwa [htext], rs,
    hrs false (by simp), rfl⟩
  obtain ⟨ps, hps, hmatches⟩ := matchesWith_of_parse hparse
  obtain rfl := Except.ok.inj (hread.symm.trans hps)
  exact ⟨_, hparse, fun lookup => by simpa using hmatches lookup⟩

lemma Addresses.of_clause {key : QualifiedTag} (hbounded : clause.Bounded)
    (hlen : utf8Len clause.text ≤ selectorInputMaxBytes)
    (hcanonical : utf8Len clause.predicate.canonical ≤ selectorInputMaxBytes)
    (haccept : ∀ lookup : Lookup, clause.predicate.matches lookup = true ↔ accept (lookup key)) :
    Addresses clause.text key accept := by
  obtain ⟨sel, hparse, hmatches⟩ := Selector.parse_clause hbounded hlen hcanonical
  refine ⟨sel, hparse, fun lookup => ?_⟩
  rw [hmatches]
  exact haccept lookup

def LabelValue.token (v : LabelValue) (h : Escapable v.text) : Token :=
  ⟨escapeValue v.text, v.text, spells_escapeValue h, v.valid⟩

/-! ### Value lists -/

lemma utf8Len_intercalate_comma (parts : List Text) (h : parts ≠ []) :
    utf8Len ([','].intercalate parts) + 1 = (parts.map fun part => utf8Len part + 1).sum := by
  induction parts with
  | nil => exact absurd rfl h
  | cons part rest ih =>
    cases rest with
    | nil => simp [List.intercalate]
    | cons next rest =>
      have hsplit : [','].intercalate (part :: next :: rest) =
          part ++ ',' :: [','].intercalate (next :: rest) := by simp [List.intercalate]
      have hcomma : (',' : Char).utf8Size = 1 := by decide
      rw [hsplit, List.map_cons, List.sum_cons, ← ih (by simp), utf8Len_append, utf8Len_cons,
        hcomma]
      omega

lemma utf8Len_canonicalSet_le {values : List Text} (h : values ≠ []) :
    utf8Len (canonicalSet values) ≤ utf8Len ([','].intercalate (values.map escapeValue)) := by
  let size : Text → ℕ := fun v => utf8Len (escapeValue v) + 1
  have hsum : ((canon values).map size).sum ≤ (values.map size).sum := by
    have hperm : ((values.insertionSort (· ≤ ·)).map size).Perm (values.map size) :=
      (List.perm_insertionSort (· ≤ ·) values).map size
    rw [← hperm.sum_eq]
    exact ((canon_sublist values).map size).sum_le_sum fun _ _ => Nat.zero_le _
  have hcanon := utf8Len_intercalate_comma ((canon values).map escapeValue)
    (by simpa [canon_eq_nil] using h)
  have hplain := utf8Len_intercalate_comma (values.map escapeValue) (by simpa using h)
  rw [List.map_map] at hcanon hplain
  have : utf8Len (canonicalSet values) + 1 ≤ utf8Len ([','].intercalate (values.map escapeValue)) +
      1 := by
    rw [hplain]
    exact hcanon.le.trans hsum
  omega

def setText (negated : Bool) (key : QualifiedTag) (values : List LabelValue) : Text :=
  key.value ++ ' ' :: ((if negated then keywordNotIn else keywordIn) ++
    ' ' :: '(' :: ([','].intercalate (values.map fun v => escapeValue v.text) ++ [')']))

variable (negated : Bool) (key : Key)

lemma exists_member_clause {values : List LabelValue} (hne : values ≠ [])
    (hcount : values.length ≤ selectorMaxSetValues) (h : ∀ v ∈ values, Escapable v.text) :
    ∃ clause : Clause, clause.Bounded ∧
      clause.text = setText negated key.1 values ∧
      clause.predicate = (if negated then .notIn key.1 (values.map LabelValue.text)
        else .isIn key.1 (values.map LabelValue.text)) := by
  have htoken : ∀ v ∈ values.map LabelValue.text, ∃ token : Token, token.value = v := by
    intro v hv
    obtain ⟨value, hvalue, rfl⟩ := List.mem_map.mp hv
    exact ⟨LabelValue.token value (h value hvalue), rfl⟩
  obtain ⟨items, hvalues, htexts⟩ := items_of_values htoken
  have hlength := congrArg List.length hvalues
  rw [List.length_map, List.length_map] at hlength
  refine ⟨.member negated key .space (by decide) .space items, ⟨?_, ?_⟩, ?_, ?_⟩
  · rintro rfl
    exact hne (List.length_eq_zero_iff.mp hlength.symm)
  · rw [hlength]
    exact hcount
  · rw [Clause.text, htexts, List.map_map]
    rfl
  · cases negated <;> simp [Clause.predicate, hvalues]

/-! ## Addressable values -/

/-- **A value list is addressable exactly when its values are escapable.** -/
theorem setText_addresses_iff {values : List LabelValue} (hne : values ≠ [])
    (hcount : values.length ≤ selectorMaxSetValues)
    (hlen : utf8Len (setText negated key.1 values) ≤ selectorInputMaxBytes) :
    Addresses (setText negated key.1 values) key.1
        (fun found => (∃ v ∈ values, found = some v.text) ↔ negated = false) ↔
      ∀ v ∈ values, Escapable v.text := by
  constructor
  · intro h v hv
    refine h.escapable v.text (values.map LabelValue.text) fun w hw hiff => ?_
    have hin : ∃ u ∈ values, some v.text = some u.text := ⟨v, hv, rfl⟩
    have hout : ¬∃ u ∈ values, some w = some u.text := by
      rintro ⟨u, hu, heq⟩
      exact hw (List.mem_map.mpr ⟨u, hu, (Option.some.inj heq).symm⟩)
    cases negated with
    | false => exact hout ((hiff.mp (iff_of_true hin rfl)).mpr rfl)
    | true => exact absurd ((hiff.mpr (iff_of_false hout (by decide))).mp hin) (by decide)
  · intro h
    obtain ⟨clause, hbounded, htext, hpredicate⟩ := exists_member_clause negated key hne hcount h
    rw [← htext] at hlen ⊢
    have hset : utf8Len (canonicalSet (values.map LabelValue.text)) ≤
        utf8Len ([','].intercalate (values.map fun v => escapeValue v.text)) := by
      have := utf8Len_canonicalSet_le (by simpa using hne : values.map LabelValue.text ≠ [])
      rwa [List.map_map] at this
    refine .of_clause hbounded hlen ?_ fun lookup => ?_
    · refine le_trans ?_ hlen
      rw [hpredicate, htext]
      cases negated <;>
      · simp only [Predicate.canonical, setText, utf8Len_append, utf8Len_cons, utf8Len_nil,
          List.append_assoc, List.cons_append, List.nil_append, if_true, Bool.false_eq_true,
            if_false]
        omega
    · rw [hpredicate]
      cases negated with
      | false => simp [Predicate.matches_isIn]
      | true => simp [Predicate.matches_notIn]

def compareText (negated : Bool) (key : QualifiedTag) (v : LabelValue) : Text :=
  key.value ++ ((if negated then ['!', '='] else ['=']) ++ escapeValue v.text)

lemma compareText_addresses_iff (v : LabelValue)
    (hlen : utf8Len (compareText negated key.1 v) ≤ selectorInputMaxBytes) :
    Addresses (compareText negated key.1 v) key.1
        (fun found => found = some v.text ↔ negated = false) ↔ Escapable v.text := by
  constructor
  · intro h
    refine h.escapable v.text [v.text] fun w hw hiff => ?_
    have hout : ¬w = v.text := by simpa using hw
    cases negated with
    | false => exact hout (Option.some.inj ((hiff.mp (iff_of_true rfl rfl)).mpr rfl))
    | true =>
      have hne : ¬some w = some v.text := fun heq => hout (Option.some.inj heq)
      exact absurd ((hiff.mpr (iff_of_false hne (by decide))).mp rfl) (by decide)
  · intro h
    let clause : Clause := .compare negated key .none .none (LabelValue.token v h)
    have htext : clause.text = compareText negated key.1 v := rfl
    have hcanonical : clause.predicate.canonical = compareText negated key.1 v := by
      cases negated <;> rfl
    rw [← htext] at hlen ⊢
    refine .of_clause trivial hlen ?_ fun lookup => ?_
    · rwa [hcanonical, ← htext]
    · cases negated with
      | false => exact Predicate.matches_equals.trans (by simp [LabelValue.token])
      | true => exact Predicate.matches_notEquals.trans (by simp [LabelValue.token])

/-- **Which label values a selector can address.**  For each of the four operators, and
for texts within the length bound, the text is a selector for exactly the given values
if and only if all their white space has an escape. -/
theorem label_addressable_iff (key : Key) :
    (∀ v : LabelValue, utf8Len (compareText false key.1 v) ≤ selectorInputMaxBytes →
      (Addresses (compareText false key.1 v) key.1 (· = some v.text) ↔ Escapable v.text)) ∧
    (∀ v : LabelValue, utf8Len (compareText true key.1 v) ≤ selectorInputMaxBytes →
      (Addresses (compareText true key.1 v) key.1 (· ≠ some v.text) ↔ Escapable v.text)) ∧
    (∀ values : List LabelValue, values ≠ [] → values.length ≤ selectorMaxSetValues →
      utf8Len (setText false key.1 values) ≤ selectorInputMaxBytes →
      (Addresses (setText false key.1 values) key.1 (fun found => ∃ v ∈ values, found =
        some v.text) ↔
        ∀ v ∈ values, Escapable v.text)) ∧
    ∀ values : List LabelValue, values ≠ [] → values.length ≤ selectorMaxSetValues →
      utf8Len (setText true key.1 values) ≤ selectorInputMaxBytes →
      (Addresses (setText true key.1 values) key.1 (fun found => ¬∃ v ∈ values, found =
        some v.text) ↔
        ∀ v ∈ values, Escapable v.text) := by
  refine ⟨?_, ?_, ?_, ?_⟩
  · intro v hlen
    simpa using compareText_addresses_iff false key v hlen
  · intro v hlen
    simpa using compareText_addresses_iff true key v hlen
  · intro values hne hcount hlen
    simpa using setText_addresses_iff false key hne hcount hlen
  · intro values hne hcount hlen
    simpa using setText_addresses_iff true key hne hcount hlen

def sampleKey : Key :=
  ⟨⟨"a.b/labels/x".toList, 3, 10, none, by decide +kernel⟩, by decide +kernel⟩

def sampleValue : LabelValue :=
  ⟨[' ', '\t', '\n', '\r', '\\', ',', '(', ')', '=', '!', 'é'], by decide +kernel⟩

theorem label_addressable_sample :
    Addresses (compareText false sampleKey.1 sampleValue) sampleKey.1 (· = some sampleValue.text) ∧
      Addresses (setText true sampleKey.1 [sampleValue]) sampleKey.1
        (fun found => ¬∃ v ∈ [sampleValue], found = some v.text) := by
  have hall : sampleValue.text.all
      (fun c => !isWhitespace c || decide (c ∈ [' ', '\t', '\n', '\r'])) = true := by
    decide +kernel
  have hesc : Escapable sampleValue.text := fun c hc hspace => by
    simpa [hspace] using List.all_eq_true.mp hall c hc
  obtain ⟨hequals, -, -, hnotIn⟩ := label_addressable_iff sampleKey
  exact ⟨(hequals sampleValue (by decide +kernel)).mpr hesc,
    (hnotIn [sampleValue] (by simp) (by decide) (by decide +kernel)).mpr (by simpa using hesc)⟩

def injectingValue : LabelValue := ⟨'a' :: '\u00a0' :: "a.b/labels/y".toList, by decide +kernel⟩

/-- **The escaped text of a label value is read as two predicates**: it does not select
the label set that maps the key to the value, and it selects one that does not. -/
theorem no_break_space_injects :
    utf8Len (compareText false sampleKey.1 injectingValue) ≤ selectorInputMaxBytes ∧
      ∃ sel, Selector.parse (compareText false sampleKey.1 injectingValue) = .ok sel ∧
        sel.canonical = "a.b/labels/x=a a.b/labels/y".toList ∧
        sel.matchesWith (single sampleKey.1 injectingValue.text) = false ∧
        ∃ lookup : Lookup, lookup sampleKey.1 ≠ some injectingValue.text ∧
          sel.matchesWith lookup = true := by
  have hmap : (Selector.parse (compareText false sampleKey.1 injectingValue)).map
      (fun sel => (sel.canonical, sel.matchesWith (single sampleKey.1 injectingValue.text),
        sel.matchesWith fun _ => some ['a'])) =
      .ok ("a.b/labels/x=a a.b/labels/y".toList, false, true) := by
    decide +kernel
  obtain ⟨sel, hparse, hfacts⟩ := map_eq_ok.mp hmap
  simp only [Prod.mk.injEq] at hfacts
  refine ⟨by decide +kernel, sel, hparse, hfacts.1, hfacts.2.1, fun _ => some ['a'], ?_, hfacts.2.2⟩
  decide +kernel

end Radiata.Routing
