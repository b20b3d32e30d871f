import Radiata.Routing.SelectorSyntax

/-!
# Canonical selectors

Every parsed predicate can be spelled canonically, and the canonical text of a
selector is a spelled input: no adjacency that sorting creates is read differently.
From this, parsing the canonical text gives the selector back, the selector means the
conjunction of the predicates that were written, and only the set of predicates and
the sets of their members matter.
-/

namespace Radiata.Routing

open Lib Protocol
open List (length_map map map_map mem_map_of_mem not_mem_nil)

/-! ## Normal predicates -/

def Predicate.normal : Predicate → Predicate
  | isIn key values => .isIn key (canon values)
  | notIn key values => .notIn key (canon values)
  | p => p

lemma any_eq_of_mem_iff {l l' : List Text} (h : ∀ v, v ∈ l ↔ v ∈ l') (x : Text) :
    (l.any (· == x)) = l'.any (· == x) := by
  rw [Bool.eq_iff_iff, List.any_eq_true, List.any_eq_true]
  simp [h]

lemma Predicate.matches_normal (p : Predicate) (lookup : Lookup) :
    p.normal.matches lookup = p.matches lookup := by
  have hcanon (values : List Text) (x : Text) :
      ((canon values).any (· == x)) = values.any (· == x) :=
    any_eq_of_mem_iff (fun _ => mem_canon) x
  cases p with
  | exist | notExists | equals | notEquals => rfl
  | isIn key values | notIn key values => simp only [normal, Predicate.matches, hcanon]

lemma Predicate.canonical_normal (p : Predicate) : p.normal.canonical = p.canonical := by
  cases p with
  | exist | notExists | equals | notEquals => rfl
  | isIn key values | notIn key values =>
    simp only [normal, Predicate.canonical, canonicalSet, canon_canon]

/-! ## Every parsed predicate has a spelling -/

def Predicate.Spelled (p : Predicate) : Prop :=
  ∃ clause : Clause, clause.Bounded ∧ clause.predicate = p

def Blanks.none : Blanks := ⟨[], .nil⟩

def Blanks.space : Blanks := ⟨[' '], by intro c hc; obtain rfl := List.mem_singleton.mp hc; decide⟩

def Token.item (token : Token) : Item := ⟨.none, token, .none⟩

variable {input rest : Text} {values : List Text}

lemma tokens_of_parseItems {room : ℕ} (h : parseItems room input = .ok (values, rest)) :
    ∃ items : List Item, items.map (fun i => i.token.value) = values ∧ items ≠ [] ∧
      items.length ≤ room := by
  induction room generalizing input values rest with
  | zero => cases h
  | succ room ih =>
    rw [parseItems] at h
    obtain ⟨⟨value, rest'⟩, hvalue, h⟩ := bind_eq_ok.mp h
    obtain ⟨token, rfl, -, -⟩ := token_of_parse hvalue
    dsimp only at h
    split at h
    · obtain ⟨⟨values', rest''⟩, hmore, h⟩ := bind_eq_ok.mp h
      obtain ⟨rfl, rfl⟩ := Prod.mk.inj (Except.ok.inj h)
      obtain ⟨items, rfl, hne, hlen⟩ := ih hmore
      exact ⟨token.item :: items, rfl, by simp, by simpa using hlen⟩
    · obtain ⟨rfl, rfl⟩ := Prod.mk.inj (Except.ok.inj h)
      exact ⟨[token.item], rfl, by simp, by simp⟩
    · cases h

lemma tokens_of_parseSet (h : parseSet input = .ok (values, rest)) :
    ∃ items : List Item, items.map (fun i => i.token.value) = values ∧ items ≠ [] ∧
      items.length ≤ selectorMaxSetValues := by
  unfold parseSet at h
  split at h
  · exact tokens_of_parseItems h
  · cases h

variable {p : Predicate}

lemma spelled_of_parseOperatorTail (key : Key) {checkpoint : Text}
    (h : parseOperatorTail key.1 checkpoint = .ok (some p, rest)) : p.Spelled := by
  have hcompare (negated : Bool) {input : Text} {make : Text → Predicate}
      (hmake : ∀ token : Token, (Clause.compare negated key .none .none token).predicate =
        make token.value)
      (h : (do
        let read ← parseValue false input
        pure (some (make read.1), read.2) : Result (Option Predicate × Text)) =
          .ok (some p, rest)) :
      p.Spelled := by
    obtain ⟨⟨value, rest'⟩, hvalue, h⟩ := bind_eq_ok.mp h
    obtain ⟨token, rfl, -, -⟩ := token_of_parse hvalue
    obtain rfl := Option.some.inj (Prod.mk.inj (Except.ok.inj h)).1
    exact ⟨.compare negated key .none .none token, trivial, hmake token⟩
  have hmember (negated : Bool) {input : Text} {make : List Text → Predicate}
      (hmake : ∀ items, (Clause.member negated key .space (by decide) .none items).predicate =
        make (items.map fun i => i.token.value))
      (h : (do
        let read ← parseSet input
        pure (some (make read.1), read.2) : Result (Option Predicate × Text)) =
          .ok (some p, rest)) :
      p.Spelled := by
    obtain ⟨⟨values, rest'⟩, hset, h⟩ := bind_eq_ok.mp h
    obtain ⟨items, rfl, hne, hlen⟩ := tokens_of_parseSet hset
    obtain rfl := Option.some.inj (Prod.mk.inj (Except.ok.inj h)).1
    exact ⟨.member negated key .space (by decide) .none items, ⟨hne, hlen⟩, hmake items⟩
  unfold parseOperatorTail at h
  split at h
  · exact hcompare false (fun _ => rfl) h
  · exact hcompare true (fun _ => rfl) h
  · cases h
  · split at h
    · exact hmember false (fun _ => rfl) h
    · exact hmember true (fun _ => rfl) h
    · cases h

lemma spelled_of_parsePredicate (h : parsePredicate input = .ok (p, rest)) : p.Spelled := by
  unfold parsePredicate at h
  split at h
  · obtain ⟨⟨tag, rest'⟩, hkey, h⟩ := bind_eq_ok.mp h
    obtain rfl := (Prod.mk.inj (Except.ok.inj h)).1
    exact ⟨.notExists ⟨tag, (key_of_parse hkey).1⟩, trivial, rfl⟩
  · obtain ⟨⟨tag, rest'⟩, hkey, h⟩ := bind_eq_ok.mp h
    obtain ⟨⟨operator, rest''⟩, htail, h⟩ := bind_eq_ok.mp h
    obtain rfl := (Prod.mk.inj (Except.ok.inj h)).1
    cases operator with
    | none => exact ⟨.exist ⟨tag, (key_of_parse hkey).1⟩, trivial, rfl⟩
    | some p => exact spelled_of_parseOperatorTail ⟨tag, (key_of_parse hkey).1⟩ htail

variable {ps : List Predicate}

lemma spelled_of_parseLoop {fuel : ℕ} {room : Option ℕ} (h : parseLoop fuel room input = .ok ps) :
    (∀ p ∈ ps, p.Spelled) ∧ ∀ n ∈ room, ps.length ≤ n := by
  induction fuel generalizing room input ps with
  | zero => cases h
  | succ fuel ih =>
    rw [parseLoop] at h
    split at h
    · obtain rfl := Except.ok.inj h
      exact ⟨fun _ hp => absurd hp not_mem_nil, fun n _ => Nat.zero_le n⟩
    · split_ifs at h with hroom
      obtain ⟨⟨p, rest⟩, hp, h⟩ := bind_eq_ok.mp h
      obtain ⟨ps', hps, h⟩ := bind_eq_ok.mp h
      obtain rfl := Except.ok.inj h
      obtain ⟨hspelled, hcount⟩ := ih hps
      refine ⟨?_, ?_⟩
      · intro q hq
        rcases List.mem_cons.mp hq with rfl | hq
        · exact spelled_of_parsePredicate hp
        · exact hspelled q hq
      · intro n hn
        have hle := hcount (n - 1) (Option.mem_map.mpr ⟨n, hn, rfl⟩)
        have hpos : n ≠ 0 := by
          rintro rfl
          exact hroom hn
        rw [List.length_cons]
        omega

lemma spelled_of_parsePredicateStream {enforce : Bool}
    (h : parsePredicateStream input enforce = .ok ps) :
    (∀ p ∈ ps, p.Spelled) ∧ (enforce = true → ps.length ≤ selectorMaxPredicates) := by
  obtain ⟨hspelled, hcount⟩ := spelled_of_parseLoop h
  refine ⟨hspelled, ?_⟩
  rintro rfl
  exact hcount _ rfl

/-! ## The canonical spelling of a predicate -/

lemma items_of_values (h : ∀ v ∈ values, ∃ token : Token, token.value = v) :
    ∃ items : List Item, items.map (fun i => i.token.value) = values ∧
      items.map Item.text = values.map escapeValue := by
  have hitem : ∀ b ∈ values.map (fun v => (v, escapeValue v)),
      ∃ item : Item, True ∧ (item.token.value, item.text) = b := by
    intro b hb
    obtain ⟨v, hv, rfl⟩ := List.mem_map.mp hb
    obtain ⟨token, rfl⟩ := h v hv
    exact ⟨token.canonical.item,
      trivial, by simp [Item.text, Token.item, Blanks.none, Token.canonical]⟩
  obtain ⟨items, hmap, -⟩ := exists_map_eq hitem
  refine ⟨items, ?_, ?_⟩
  · simpa [Function.comp_def] using congrArg (map Prod.fst) hmap
  · simpa [Function.comp_def] using congrArg (map Prod.snd) hmap

/-- **The canonical text is a spelling** of the normal predicate. -/
theorem Predicate.Spelled.canonical_clause {p : Predicate} (h : p.Spelled) :
    ∃ clause : Clause, clause.Bounded ∧ clause.text = p.canonical ∧ clause.predicate =
      p.normal := by
  obtain ⟨clause, hbounded, rfl⟩ := h
  have hmember (negated : Bool) (key : Key) {items : List Item} (hne : items ≠ [])
      (hlen : items.length ≤ selectorMaxSetValues) : ∃ items' : List Item,
      (Clause.member negated key .space (by decide) .space items').Bounded ∧
        items'.map (fun i => i.token.value) = canon (items.map fun i => i.token.value) ∧
        [','].intercalate (items'.map Item.text) =
          canonicalSet (items.map fun i => i.token.value) := by
    have hvalues : ∀ v ∈ canon (items.map fun i => i.token.value), ∃ token : Token, token.value =
        v := by
      intro v hv
      obtain ⟨item, -, rfl⟩ := List.mem_map.mp (mem_canon.mp hv)
      exact ⟨item.token, rfl⟩
    obtain ⟨items', hvalues', htexts⟩ := items_of_values hvalues
    have hlength : items'.length = (canon (items.map fun i => i.token.value)).length := by
      rw [← hvalues', length_map]
    refine ⟨items', ⟨?_, ?_⟩, hvalues', by rw [htexts]; rfl⟩
    · rintro rfl
      exact hne (List.map_eq_nil_iff.mp (canon_eq_nil.mp hvalues'.symm))
    · rw [hlength]
      exact (length_canon_le _).trans (by rwa [length_map])
  cases clause with
  | exist key => exact ⟨.exist key, trivial, rfl, rfl⟩
  | notExists key => exact ⟨.notExists key, trivial, rfl, rfl⟩
  | compare negated key before after token =>
    refine ⟨.compare negated key .none .none token.canonical, trivial, ?_, ?_⟩ <;>
      cases negated <;> rfl
  | member negated key before gap after items =>
    obtain ⟨items', hbounded', hvalues, htexts⟩ := hmember negated key hbounded.1 hbounded.2
    refine ⟨_, hbounded', ?_, ?_⟩ <;> cases negated <;>
      simp [Clause.text, Clause.predicate, Predicate.canonical, Predicate.normal, Blanks.space,
        hvalues, htexts]

lemma normal_eq_of_canonical_eq {q : Predicate} (hp : p.Spelled) (hq : q.Spelled)
    (h : p.canonical = q.canonical) : p.normal = q.normal := by
  have hread {r : Predicate} (hr : r.Spelled) : parsePredicate (r.canonical ++ []) =
      .ok (r.normal, []) := by
    obtain ⟨clause, hbounded, htext, hpredicate⟩ := hr.canonical_clause
    rw [← htext, ← hpredicate]
    exact parsePredicate_clause hbounded ⟨.none, [], rfl, Or.inl rfl⟩
  have hboth := (hread hp).symm.trans (h ▸ hread hq)
  exact (Prod.mk.inj (Except.ok.inj hboth)).1

/-! ## The canonical text of a selector -/

def singleSpaced : List Clause → List (Clause × Blanks)
  | [] => []
  | [clause] => [(clause, .none)]
  | clause :: next :: rest => (clause, .space) :: singleSpaced (next :: rest)

variable (clauses : List Clause)

lemma spell_singleSpaced :
    spell (singleSpaced clauses) = [' '].intercalate (clauses.map Clause.text) := by
  induction clauses using singleSpaced.induct with
  | case1 => rfl
  | case2 clause => simp [singleSpaced, spell, Blanks.none]
  | case3 clause next rest ih =>
    rw [singleSpaced, spell, ih]
    simp [Blanks.space, List.intercalate]

lemma spaced_singleSpaced : Spaced (singleSpaced clauses) := by
  induction clauses using singleSpaced.induct with
  | case1 | case2 clause => trivial
  | case3 clause next rest ih =>
    rw [singleSpaced]
    cases h : singleSpaced (next :: rest) with
    | nil => trivial
    | cons head tail => exact ⟨by decide, h ▸ ih⟩

lemma map_fst_singleSpaced : (singleSpaced clauses).map Prod.fst = clauses := by
  induction clauses using singleSpaced.induct with
  | case1 | case2 clause => rfl
  | case3 clause next rest ih => rw [singleSpaced, List.map_cons, ih]

namespace Selector

/-- **The canonical text is read as the canonical list**: its predicates are the normal
forms of those it was made from, one for each canonical text. -/
theorem read_canonicalText (h : ∀ p ∈ ps, p.Spelled) : ∃ rs : List Predicate,
      (∀ enforce : Bool, (enforce = true → ps.length ≤ selectorMaxPredicates) →
        parsePredicateStream (canonicalText ps) enforce = .ok rs) ∧
      rs.map Predicate.canonical = canon (ps.map Predicate.canonical) ∧
      ∀ r, r ∈ rs ↔ ∃ p ∈ ps, p.normal = r := by
  have htexts : ∀ t ∈ canon (ps.map Predicate.canonical), ∃ p, p ∈ ps ∧ p.canonical = t :=
    fun t ht => List.mem_map.mp (mem_canon.mp ht)
  obtain ⟨qs, hqs, hmem⟩ := exists_map_eq htexts
  have hclause : ∀ b ∈ qs.map (fun q => (q.canonical, q.normal)),
      ∃ clause : Clause, clause.Bounded ∧ (clause.text, clause.predicate) = b := by
    intro b hb
    obtain ⟨q, hq, rfl⟩ := List.mem_map.mp hb
    obtain ⟨clause, hbounded, htext, hpredicate⟩ := (h q (hmem q hq)).canonical_clause
    exact ⟨clause, hbounded, by rw [htext, hpredicate]⟩
  obtain ⟨clauses, hclauses, hbounded⟩ := exists_map_eq hclause
  have htext : clauses.map Clause.text = canon (ps.map Predicate.canonical) := by
    rw [← hqs]
    simpa [Function.comp_def] using congrArg (map Prod.fst) hclauses
  have hpredicate : clauses.map Clause.predicate = qs.map Predicate.normal := by
    simpa [Function.comp_def] using congrArg (map Prod.snd) hclauses
  refine ⟨qs.map Predicate.normal, ?_, ?_, ?_⟩
  · intro enforce hcount
    have hfst := map_fst_singleSpaced clauses
    have hle : clauses.length ≤ ps.length := by
      have := length_canon_le (ps.map Predicate.canonical)
      rwa [← htext, length_map, length_map] at this
    have hroom : enforce = true → (singleSpaced clauses).length ≤ selectorMaxPredicates := by
      intro henforce
      have hlength := congrArg List.length hfst
      rw [length_map] at hlength
      exact (hlength ▸ hle).trans (hcount henforce)
    have hread := parsePredicateStream_spell (spaced_singleSpaced clauses)
      (fun c hc => hbounded c.1 (hfst ▸ mem_map_of_mem hc)) .none hroom
    rw [← hpredicate, ← hfst, map_map]
    rw [spell_singleSpaced, htext] at hread
    exact hread
  · rw [map_map, ← hqs]
    exact List.map_congr_left fun q _ => q.canonical_normal
  · intro r
    constructor
    · intro hr
      obtain ⟨q, hq, rfl⟩ := List.mem_map.mp hr
      exact ⟨q, hmem q hq, rfl⟩
    · rintro ⟨p, hp, rfl⟩
      -- Some chosen predicate has the same text, hence the same normal form.
      have hcanonical : p.canonical ∈ qs.map Predicate.canonical := by
        rw [hqs, mem_canon]
        exact mem_map_of_mem hp
      obtain ⟨q, hq, heq⟩ := List.mem_map.mp hcanonical
      rw [← normal_eq_of_canonical_eq (h q (hmem q hq)) (h p hp) heq]
      exact mem_map_of_mem hq

variable {sel : Selector}

lemma parse_eq_ok {value : Text} : parse value = .ok sel ↔
      (value ≠ [] ∧ utf8Len value ≤ selectorInputMaxBytes) ∧
        ∃ ps, parsePredicateStream value true = .ok ps ∧ ps ≠ [] ∧
          utf8Len (canonicalText ps) ≤ selectorInputMaxBytes ∧
          ∃ rs, parsePredicateStream (canonicalText ps) false = .ok rs ∧
            sel = ⟨canonicalText ps, rs⟩ := by
  unfold parse
  rw [require_bind_eq_ok]
  refine and_congr_right fun _ => ?_
  rw [bind_eq_ok]
  refine exists_congr fun ps => and_congr_right fun _ => ?_
  rw [require_bind_eq_ok]
  refine and_congr_right fun _ => ?_
  show (require _ _ >>= fun _ => _) = _ ↔ _
  rw [require_bind_eq_ok]
  refine and_congr_right fun _ => ?_
  rw [bind_eq_ok]
  refine exists_congr fun rs => and_congr_right fun _ => ?_
  exact ⟨fun h => (Except.ok.inj h).symm, fun h => h ▸ rfl⟩

lemma canonicalText_ne_nil (h : ps ≠ []) (hspelled : ∀ p ∈ ps, p.Spelled) :
    canonicalText ps ≠ [] := by
  intro hnil
  obtain ⟨rs, hread, -, hmem⟩ := read_canonicalText hspelled
  have hempty := hread false (by simp)
  rw [hnil] at hempty
  obtain ⟨p, hp⟩ := List.exists_mem_of_ne_nil ps h
  have hr := (hmem p.normal).mpr ⟨p, hp, rfl⟩
  rw [← Except.ok.inj hempty] at hr
  exact absurd hr not_mem_nil

lemma parse_canonical {s : Text} (h : parse s = .ok sel) : parse sel.canonical = .ok sel := by
  obtain ⟨-, ps, hps, hne, hlen, rs, hrs, rfl⟩ := parse_eq_ok.mp h
  obtain ⟨hspelled, hcount⟩ := spelled_of_parsePredicateStream hps
  obtain ⟨rs', hread, hcanonical, hmem⟩ := read_canonicalText hspelled
  obtain rfl : rs' = rs := Except.ok.inj ((hread false (by simp)).symm.trans hrs)
  have htext : canonicalText rs' = canonicalText ps := by
    unfold canonicalText
    rw [hcanonical, canon_canon]
  refine parse_eq_ok.mpr ⟨⟨canonicalText_ne_nil hne hspelled, hlen⟩, rs', hread true hcount, ?_, ?_,
    rs', ?_, ?_⟩
  · rintro rfl
    obtain ⟨p, hp⟩ := List.exists_mem_of_ne_nil ps hne
    exact absurd ((hmem _).mpr ⟨p, hp, rfl⟩) not_mem_nil
  · rw [htext]
    exact hlen
  · rw [htext]
    exact hrs
  · rw [htext]

lemma matchesWith_of_parse {s : Text} (h : parse s = .ok sel) :
    ∃ ps, parsePredicateStream s true = .ok ps ∧
      ∀ lookup, sel.matchesWith lookup = ps.all (Predicate.matches lookup) := by
  obtain ⟨-, ps, hps, -, -, rs, hrs, rfl⟩ := parse_eq_ok.mp h
  obtain ⟨rs', hread, -, hmem⟩ := read_canonicalText (spelled_of_parsePredicateStream hps).1
  obtain rfl : rs' = rs := Except.ok.inj ((hread false (by simp)).symm.trans hrs)
  refine ⟨ps, hps, fun lookup => ?_⟩
  show rs'.all (Predicate.matches lookup) = _
  rw [Bool.eq_iff_iff, List.all_eq_true, List.all_eq_true]
  constructor
  · intro hall p hp
    rw [← p.matches_normal]
    exact hall _ ((hmem _).mpr ⟨p, hp, rfl⟩)
  · intro hall r hr
    obtain ⟨p, hp, rfl⟩ := (hmem r).mp hr
    rw [p.matches_normal]
    exact hall p hp

/-! ## Rearranged inputs -/

end Selector

def Predicate.Same : Predicate → Predicate → Prop
  | isIn key values, isIn key' values' => key = key' ∧ ∀ v, v ∈ values ↔ v ∈ values'
  | notIn key values, notIn key' values' => key = key' ∧ ∀ v, v ∈ values ↔ v ∈ values'
  | p, q => p = q

lemma Predicate.Same.canonical_eq {q : Predicate} (h : p.Same q) : p.canonical = q.canonical := by
  unfold Same at h
  split at h
  · obtain ⟨rfl, hvalues⟩ := h
    simp only [Predicate.canonical, canonicalSet, canon_congr hvalues]
  · obtain ⟨rfl, hvalues⟩ := h
    simp only [Predicate.canonical, canonicalSet, canon_congr hvalues]
  · rw [h]

def Rearranged (ps qs : List Predicate) : Prop :=
  (∀ p ∈ ps, ∃ q ∈ qs, p.Same q) ∧ ∀ q ∈ qs, ∃ p ∈ ps, p.Same q

lemma Rearranged.canonicalText_eq {qs : List Predicate} (h : Rearranged ps qs) :
    Selector.canonicalText ps = Selector.canonicalText qs := by
  unfold Selector.canonicalText
  congr 1
  refine canon_congr fun t => ?_
  constructor
  · intro ht
    obtain ⟨p, hp, rfl⟩ := List.mem_map.mp ht
    obtain ⟨q, hq, hsame⟩ := h.1 p hp
    rw [hsame.canonical_eq]
    exact mem_map_of_mem hq
  · intro ht
    obtain ⟨q, hq, rfl⟩ := List.mem_map.mp ht
    obtain ⟨p, hp, hsame⟩ := h.2 q hq
    rw [← hsame.canonical_eq]
    exact mem_map_of_mem hp

namespace Selector

lemma parse_of_rearranged {s s' : Text} {sel : Selector} {qs : List Predicate}
    (h : parse s = .ok sel) (hps : parsePredicateStream s true = .ok ps)
    (hqs : parsePredicateStream s' true = .ok qs) (hsame : Rearranged ps qs)
    (hlen : utf8Len s' ≤ selectorInputMaxBytes) : parse s' = .ok sel := by
  obtain ⟨-, ps', hps', hne, hcanonical, rs, hrs, rfl⟩ := parse_eq_ok.mp h
  obtain rfl : ps = ps' := Except.ok.inj (hps.symm.trans hps')
  obtain ⟨p, hp⟩ := List.exists_mem_of_ne_nil ps hne
  obtain ⟨q, hq, -⟩ := hsame.1 p hp
  have hqne : qs ≠ [] := List.ne_nil_of_mem hq
  have hne' : s' ≠ [] := by
    rintro rfl
    exact hqne (Except.ok.inj hqs).symm
  rw [hsame.canonicalText_eq] at hcanonical hrs ⊢
  exact parse_eq_ok.mpr ⟨⟨hne', hlen⟩, qs, hqs, hqne, hcanonical, rs, hrs, rfl⟩

structure Written (clauses : List (Clause × Blanks)) : Prop where
  spaced : Spaced clauses
  bounded : ∀ clause ∈ clauses, clause.1.Bounded
  count : clauses.length ≤ selectorMaxPredicates

def saying (clauses : List (Clause × Blanks)) : List Predicate := clauses.map fun c => c.1.predicate

lemma Written.read {clauses : List (Clause × Blanks)} (h : Written clauses) (lead : Blanks) :
    parsePredicateStream (lead.1 ++ spell clauses) true = .ok (saying clauses) :=
  parsePredicateStream_spell h.spaced h.bounded lead fun _ => h.count

/-- **Canonicalisation** is idempotent and keeps the meaning, and the selector depends
only on which predicates were written and on the members of their sets. -/
theorem parse_canonicalises {s : Text} {sel : Selector} (h : parse s = .ok sel) :
    parse sel.canonical = .ok sel ∧
      ∃ ps, parsePredicateStream s true = .ok ps ∧
        (∀ lookup, sel.matchesWith lookup = ps.all (Predicate.matches lookup)) ∧
        (∀ s' qs, parsePredicateStream s' true = .ok qs → Rearranged ps qs →
          utf8Len s' ≤ selectorInputMaxBytes → parse s' = .ok sel) ∧
        ∀ (lead lead' : Blanks) (clauses clauses' : List (Clause × Blanks)),
          s = lead.1 ++ spell clauses → Written clauses → Written clauses' →
          Rearranged (saying clauses) (saying clauses') →
          utf8Len (lead'.1 ++ spell clauses') ≤ selectorInputMaxBytes →
          parse (lead'.1 ++ spell clauses') = .ok sel := by
  obtain ⟨ps, hps, hmatches⟩ := matchesWith_of_parse h
  refine ⟨parse_canonical h, ps, hps, hmatches, ?_, ?_⟩
  · intro s' qs hqs hsame hlen
    exact parse_of_rearranged h hps hqs hsame hlen
  · rintro lead lead' clauses clauses' rfl hwritten hwritten' hsame hlen
    exact parse_of_rearranged h (hwritten.read lead) (hwritten'.read lead') hsame hlen

/-- A bare key before a set, an operator across white space and a repeated predicate. -/
theorem parse_canonicalises_sample : ∃ sel,
    parse "a.b/labels/z !a.b/labels/y a.b/labels/z a.b/labels/x in (q , p,q)".toList = .ok sel ∧
      sel.canonical = "!a.b/labels/y a.b/labels/x in (p,q) a.b/labels/z".toList ∧
      parse sel.canonical = .ok sel := by
  have hmap : (parse "a.b/labels/z !a.b/labels/y a.b/labels/z a.b/labels/x in (q , p,q)".toList).map
      (fun sel => sel.canonical) =
        .ok "!a.b/labels/y a.b/labels/x in (p,q) a.b/labels/z".toList := by
    decide +kernel
  obtain ⟨sel, hparse, hcanonical⟩ := map_eq_ok.mp hmap
  exact ⟨sel, hparse, hcanonical, (parse_canonicalises hparse).1⟩

end Selector

end Radiata.Routing
