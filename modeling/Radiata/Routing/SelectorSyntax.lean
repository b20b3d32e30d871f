import Radiata.Routing.Selector

/-!
# How selectors are read

The parser read against what may be written.  A `Token` is a spelling of a value, a
`Clause` a spelling of one predicate with all the white space its grammar allows, and
a spelled input is a list of clauses with white space between them.  `parseLoop_spell`
says that a spelled input is read as exactly its clauses' predicates.

The one delicate point is a bare key: whether it stands alone is decided by what comes
after the white space, and `Follows` is the condition on the rest of the input under
which it does.
-/

namespace Radiata.Routing

open Lib Protocol
open List (append_assoc cons_append mem_cons mem_cons_self not_mem_nil)
open Or (inl inr)

/-! ## Values -/

def Plain (c : Char) : Prop :=
  c ≠ '\\' ∧ isWhitespace c = false ∧ c ∉ ['(', ')', ',', '=', '!']

inductive Spells : Text → Text → Prop
  | nil : Spells [] []
  | escape {e c : Char} {text value : Text} (he : unescape e = some c) (h : Spells text value) :
      Spells ('\\' :: e :: text) (c :: value)
  | plain {c : Char} {text value : Text} (hc : Plain c) (h : Spells text value) :
      Spells (c :: text) (c :: value)

def Delimited (inList : Bool) (rest : Text) : Prop :=
  ∀ c ∈ rest.head?, isWhitespace c = true ∨ inList = true ∧ (c = ',' ∨ c = ')')

lemma Delimited.nil (inList : Bool) : Delimited inList [] := by
  simp [Delimited]

lemma Delimited.cons {inList : Bool} {c : Char} {rest : Text}
    (h : isWhitespace c = true ∨ inList = true ∧ (c = ',' ∨ c = ')')) :
    Delimited inList (c :: rest) := by
  intro d hd
  obtain rfl : c = d := by simpa using hd
  exact h

variable {inList : Bool} {c : Char}

lemma readValue_escape {e : Char} (he : unescape e = some c) (rest : Text) :
    readValue inList ('\\' :: e :: rest) =
      (readValue inList rest).map fun (value, rest) => (c :: value, rest) := by
  rw [readValue, if_pos rfl, he]

lemma readValue_cons (hc : c ≠ '\\') (rest : Text) : readValue inList (c :: rest) =
      if isWhitespace c then .ok ([], c :: rest)
      else if inList ∧ (c = ',' ∨ c = ')') then .ok ([], c :: rest)
      else if c ∈ ['(', ')', ',', '=', '!'] then .error (.invalidInput "selector value")
      else (readValue inList rest).map fun (value, rest) => (c :: value, rest) := by
  rw [readValue.eq_def]
  exact if_neg hc

lemma readValue_plain (hc : Plain c) (rest : Text) : readValue inList (c :: rest) =
      (readValue inList rest).map fun (value, rest) => (c :: value, rest) := by
  obtain ⟨hslash, hspace, hspecial⟩ := hc
  have hlist : ¬(inList = true ∧ (c = ',' ∨ c = ')')) := by
    rintro ⟨-, rfl | rfl⟩ <;> exact hspecial (by decide)
  rw [readValue_cons hslash, if_neg (by simp [hspace]), if_neg hlist, if_neg hspecial]

variable {rest : Text}

lemma readValue_delimited (h : Delimited inList rest) :
    readValue inList rest = .ok ([], rest) := by
  cases rest with
  | nil => rw [readValue]
  | cons c rest =>
    have hend := h c rfl
    have hslash : c ≠ '\\' := by
      rintro rfl
      rcases hend with hspace | ⟨-, hcomma | hclose⟩
      · exact absurd hspace (by decide)
      · exact absurd hcomma (by decide)
      · exact absurd hclose (by decide)
    rw [readValue_cons hslash]
    split_ifs with hspace hlist
    · rfl
    · rfl
    · exact absurd hend (by tauto)
    · exact absurd hend (by tauto)

lemma Spells.read {text value rest : Text} (h : Spells text value) {inList : Bool}
    (hrest : Delimited inList rest) : readValue inList (text ++ rest) = .ok (value, rest) := by
  induction h with
  | nil => exact readValue_delimited hrest
  | escape he _ ih =>
    rw [cons_append, cons_append, readValue_escape he, ih]
    rfl
  | plain hc _ ih =>
    rw [cons_append, readValue_plain hc, ih]
    rfl

variable {input value : Text}

lemma spells_of_read (h : readValue inList input = .ok (value, rest)) :
    ∃ text, input = text ++ rest ∧ Spells text value ∧ Delimited inList rest := by
  induction input using readValue.induct inList generalizing value rest with
  | case1 =>
    obtain ⟨rfl, rfl⟩ := Prod.mk.inj (Except.ok.inj h)
    exact ⟨[], rfl, .nil, .nil inList⟩
  | case2 => cases h
  | case3 e tail he =>
    rw [readValue, if_pos rfl, he] at h
    cases h
  | case4 e tail c he ih =>
    rw [readValue_escape he] at h
    obtain ⟨⟨value', rest'⟩, hread, heq⟩ := map_eq_ok.mp h
    obtain ⟨rfl, rfl⟩ := Prod.mk.inj heq
    obtain ⟨text, htext, hspells, hrest⟩ := ih hread
    exact ⟨'\\' :: e :: text, by rw [htext]; rfl, .escape he hspells, hrest⟩
  | case5 c tail hslash hspace =>
    rw [readValue_cons hslash, if_pos hspace] at h
    obtain ⟨rfl, rfl⟩ := Prod.mk.inj (Except.ok.inj h)
    exact ⟨[], rfl, .nil, .cons (inl hspace)⟩
  | case6 c tail hslash hspace hlist =>
    rw [readValue_cons hslash, if_neg hspace, if_pos hlist] at h
    obtain ⟨rfl, rfl⟩ := Prod.mk.inj (Except.ok.inj h)
    exact ⟨[], rfl, .nil, .cons (inr hlist)⟩
  | case7 c tail hslash hspace hlist hspecial =>
    rw [readValue_cons hslash, if_neg hspace, if_neg hlist, if_pos hspecial] at h
    cases h
  | case8 c tail hslash hspace hlist hspecial ih =>
    rw [readValue_cons hslash, if_neg hspace, if_neg hlist, if_neg hspecial] at h
    obtain ⟨⟨value', rest'⟩, hread, heq⟩ := map_eq_ok.mp h
    obtain ⟨rfl, rfl⟩ := Prod.mk.inj heq
    obtain ⟨text, htext, hspells, hrest⟩ := ih hread
    exact ⟨c :: text, by rw [htext]; rfl, .plain ⟨hslash, by simpa using hspace, hspecial⟩ hspells,
      hrest⟩

/-! ### Escaping -/

def Escapable (value : Text) : Prop :=
  ∀ c ∈ value, isWhitespace c = true → c ∈ [' ', '\t', '\n', '\r']

lemma isWhitespace_unescape {e : Char} (h : unescape e = some c) (hc : isWhitespace c = true) :
    c ∈ [' ', '\t', '\n', '\r'] := by
  unfold unescape at h
  split_ifs at h with h1 h2 h3 h4 h5
  · obtain rfl := Option.some.inj h; decide
  · obtain rfl := Option.some.inj h; decide
  · obtain rfl := Option.some.inj h; decide
  · obtain rfl := Option.some.inj h; decide
  · obtain rfl := Option.some.inj h
    simp only [mem_cons, not_mem_nil, or_false] at h5
    rcases h5 with rfl | rfl | rfl | rfl | rfl | rfl <;> exact absurd hc (by decide)

lemma Spells.escapable {text value : Text} (h : Spells text value) : Escapable value := by
  induction h with
  | nil => exact fun _ hc => absurd hc not_mem_nil
  | escape he _ ih =>
    intro c hc hspace
    rcases List.mem_cons.mp hc with rfl | hc
    · exact isWhitespace_unescape he hspace
    · exact ih c hc hspace
  | plain hplain _ ih =>
    intro c hc hspace
    rcases List.mem_cons.mp hc with rfl | hc
    · exact absurd hspace (by simp [hplain.2.1])
    · exact ih c hc hspace

lemma escapeChar_cases (h : isWhitespace c = true → c ∈ [' ', '\t', '\n', '\r']) :
    (escapeChar c = [c] ∧ Plain c) ∨ ∃ e, escapeChar c = ['\\', e] ∧ unescape e = some c := by
  unfold escapeChar
  split_ifs with h1 h2 h3 h4 h5
  · exact inr ⟨' ', rfl, by rw [h1]; rfl⟩
  · exact inr ⟨'t', rfl, by rw [h2]; rfl⟩
  · exact inr ⟨'n', rfl, by rw [h3]; rfl⟩
  · exact inr ⟨'r', rfl, by rw [h4]; rfl⟩
  · refine inr ⟨c, rfl, ?_⟩
    simp only [mem_cons, not_mem_nil, or_false] at h5
    rcases h5 with rfl | rfl | rfl | rfl | rfl | rfl <;> rfl
  · simp only [mem_cons, not_mem_nil, or_false, not_or] at h5 h
    refine inl ⟨rfl, h5.1, ?_, ?_⟩
    · rw [Bool.eq_false_iff]
      intro hspace
      rcases h hspace with hc | hc | hc | hc <;> contradiction
    · simp only [mem_cons, not_mem_nil, or_false, not_or]
      tauto

lemma spells_escapeValue (h : Escapable value) : Spells (escapeValue value) value := by
  induction value with
  | nil => exact .nil
  | cons c value ih =>
    have htail := ih fun d hd => h d (List.mem_cons_of_mem _ hd)
    rw [escapeValue, List.flatMap_cons]
    rcases escapeChar_cases (h c mem_cons_self) with ⟨heq, hplain⟩ | ⟨e, heq, he⟩
    · rw [heq]
      exact .plain hplain htail
    · rw [heq]
      exact .escape he htail

lemma Spells.skipWhitespace {text value rest : Text} (h : Spells text value) (hne : value ≠ []) :
    skipWhitespace (text ++ rest) = text ++ rest := by
  cases h with
  | nil => exact absurd rfl hne
  | escape he _ => exact List.dropWhile_cons_of_neg (by decide)
  | plain hc _ => exact List.dropWhile_cons_of_neg (by simp [hc.2.1])

structure Token where
  text : Text
  value : Text
  spells : Spells text value
  bounded : value ≠ [] ∧ utf8Len value ≤ labelValueMaxBytes

lemma Token.parse (token : Token) (h : Delimited inList rest) :
    parseValue inList (token.text ++ rest) = .ok (token.value, rest) := by
  rw [parseValue, token.spells.read h, ok_bind]
  show (validateBoundedValue token.value "selector value" >>= fun _ => _) = _
  rw [validateBoundedValue, require_bind_eq_ok]
  exact ⟨token.bounded, rfl⟩

lemma token_of_parse (h : parseValue inList input = .ok (value, rest)) :
    ∃ token : Token, token.value = value ∧ input = token.text ++ rest ∧ Delimited inList rest := by
  obtain ⟨⟨value', rest'⟩, hread, h⟩ := bind_eq_ok.mp h
  obtain ⟨hbounded, h⟩ := require_bind_eq_ok.mp h
  obtain ⟨rfl, rfl⟩ := Prod.mk.inj (Except.ok.inj h)
  obtain ⟨text, htext, hspells, hrest⟩ := spells_of_read hread
  exact ⟨⟨text, value', hspells, hbounded⟩, rfl, htext, hrest⟩

def Token.canonical (token : Token) : Token where
  text := escapeValue token.value
  value := token.value
  spells := spells_escapeValue token.spells.escapable
  bounded := token.bounded

/-! ## Keys -/

lemma isTagChar_iff : isTagChar c = true ↔
    (97 ≤ c.toNat ∧ c.toNat ≤ 122) ∨ (45 ≤ c.toNat ∧ c.toNat ≤ 57) := by
  simp only [isTagChar, Char.isLower, Char.isDigit, Bool.or_eq_true, Bool.and_eq_true,
    decide_eq_true_eq, UInt32.le_iff_toNat_le, ge_iff_le, beq_iff_eq, ← Char.toNat_inj]
  have : c.toNat = c.val.toNat := rfl
  have : 'a'.val.toNat = 97 := rfl
  have : 'z'.val.toNat = 122 := rfl
  have : '0'.val.toNat = 48 := rfl
  have : '9'.val.toNat = 57 := rfl
  have : '-'.toNat = 45 := rfl
  have : '.'.toNat = 46 := rfl
  have : '/'.toNat = 47 := rfl
  omega

lemma endsKey_of_isTagChar (h : isTagChar c = true) : endsKey c = false := by
  rw [isTagChar_iff] at h
  have hspace : isWhitespace c = false := by
    simp only [isWhitespace, Bool.or_eq_false_iff, Bool.and_eq_false_iff, decide_eq_false_iff_not,
      beq_eq_false_iff_ne]
    omega
  have hspecial : c ∉ ['=', '!', '(', ')', ',', '\\'] := by
    simp only [mem_cons, not_mem_nil, or_false, ← Char.toNat_inj]
    have : '='.toNat = 61 := rfl
    have : '!'.toNat = 33 := rfl
    have : '('.toNat = 40 := rfl
    have : ')'.toNat = 41 := rfl
    have : ','.toNat = 44 := rfl
    have : '\\'.toNat = 92 := rfl
    omega
  simp [endsKey, hspace, hspecial]

abbrev Key := {tag : QualifiedTag // Selectable tag}

lemma exists_key_cons (tag : QualifiedTag) : ∃ c t, tag.value = c :: t ∧ isTagChar c = true := by
  cases h : tag.value with
  | nil => exact absurd tag.slash_mem (by simp [h])
  | cons c t => exact ⟨c, t, rfl, tag.isTagChar_of_mem (by simp [h])⟩

def EndsKey (rest : Text) : Prop := ∀ c ∈ rest.head?, endsKey c = true

lemma parseKey_append (key : Key) (h : EndsKey rest) :
    parseKey (key.1.value ++ rest) = .ok (key.1, rest) := by
  have hall : ∀ c ∈ key.1.value, (!endsKey c) = true := fun c hc => by
    rw [endsKey_of_isTagChar (key.1.isTagChar_of_mem hc)]
    rfl
  have htake : rest.takeWhile (fun c => !endsKey c) = [] := by
    cases rest with
    | nil => rfl
    | cons c rest => exact List.takeWhile_cons_of_neg (by simp [h c rfl])
  have hdrop : rest.dropWhile (fun c => !endsKey c) = rest := by
    cases rest with
    | nil => rfl
    | cons c rest => exact List.dropWhile_cons_of_neg (by simp [h c rfl])
  rw [parseKey, List.takeWhile_append_of_pos hall, List.dropWhile_append_of_pos hall, htake, hdrop,
    List.append_nil, QualifiedTag.parse_value, ok_bind, require_bind_eq_ok]
  exact ⟨key.2, rfl⟩

lemma key_of_parse {tag : QualifiedTag} (h : parseKey input = .ok (tag, rest)) :
    Selectable tag ∧ input = tag.value ++ rest := by
  obtain ⟨tag', hparse, h⟩ := bind_eq_ok.mp h
  obtain ⟨hselectable, h⟩ := require_bind_eq_ok.mp h
  obtain ⟨rfl, rfl⟩ := Prod.mk.inj (Except.ok.inj h)
  refine ⟨hselectable, ?_⟩
  rw [QualifiedTag.value_of_parse hparse, List.takeWhile_append_dropWhile]

/-! ## Clauses -/

abbrev Blanks := {t : Text // Blank t}

structure Item where
  before : Blanks
  token : Token
  after : Blanks

def Item.text (item : Item) : Text := item.before.1 ++ item.token.text ++ item.after.1

inductive Clause where
  | exist (key : Key)
  | notExists (key : Key)
  | compare (negated : Bool) (key : Key) (before after : Blanks) (token : Token)
  | member (negated : Bool) (key : Key) (before : Blanks) (gap : before.1 ≠ []) (after : Blanks)
      (items : List Item)

namespace Clause

def text : Clause → Text
  | exist key => key.1.value
  | notExists key => '!' :: key.1.value
  | compare negated key before after token =>
    key.1.value ++ (before.1 ++ ((if negated then ['!', '='] else ['=']) ++
      (after.1 ++ token.text)))
  | member negated key before _ after items =>
    key.1.value ++ (before.1 ++ ((if negated then keywordNotIn else keywordIn) ++
      (after.1 ++ '(' :: ([','].intercalate (items.map Item.text) ++ [')']))))

def predicate : Clause → Predicate
  | exist key => .exist key.1
  | notExists key => .notExists key.1
  | compare false key _ _ token => .equals key.1 token.value
  | compare true key _ _ token => .notEquals key.1 token.value
  | member false key _ _ _ items => .isIn key.1 (items.map fun i => i.token.value)
  | member true key _ _ _ items => .notIn key.1 (items.map fun i => i.token.value)

def Bounded : Clause → Prop
  | member _ _ _ _ _ items => items ≠ [] ∧ items.length ≤ selectorMaxSetValues
  | _ => True

end Clause

/-! ### White space around tokens -/

variable {ws : Text}

lemma skipWhitespace_append (h : Blank ws) (t : Text) :
    skipWhitespace (ws ++ t) = skipWhitespace t :=
  dropWhile_append_of_blank h t

lemma skipWhitespace_cons (h : isWhitespace c = false) (t : Text) :
    skipWhitespace (c :: t) = c :: t :=
  List.dropWhile_cons_of_neg (by simp [h])

lemma skipWhitespace_append_cons (h : Blank ws) (hc : isWhitespace c = false) (t : Text) :
    skipWhitespace (ws ++ c :: t) = c :: t := by
  rw [skipWhitespace_append h, skipWhitespace_cons hc]

variable {t : Text} {P : Char → Prop}

lemma head_append_of_blank (h : Blank ws) (hws : ∀ c, isWhitespace c = true → P c)
    (ht : ∀ c ∈ t.head?, P c) : ∀ c ∈ (ws ++ t).head?, P c := by
  cases ws with
  | nil => exact ht
  | cons d ws =>
    intro c hc
    obtain rfl : d = c := by simpa using hc
    exact hws d (h d mem_cons_self)

lemma parseItems_spell {items : List Item} (hne : items ≠ []) {room : ℕ}
    (hroom : items.length ≤ room) (rest : Text) :
    parseItems room ([','].intercalate (items.map Item.text) ++ ')' :: rest) =
      .ok (items.map fun i => i.token.value, rest) := by
  induction items generalizing room with
  | nil => exact absurd rfl hne
  | cons item items ih =>
    obtain ⟨room, rfl⟩ : ∃ n, room = n + 1 := ⟨room - 1, by simp at hroom; omega⟩
    -- One member is read the same way whichever delimiter comes after it.
    have hmember (c : Char) (hc : c = ',' ∨ c = ')') (t : Text) :
        parseValue true (skipWhitespace (item.text ++ c :: t)) =
          .ok (item.token.value, item.after.1 ++ c :: t) := by
      rw [Item.text, append_assoc, append_assoc, skipWhitespace_append item.before.2,
        item.token.spells.skipWhitespace item.token.bounded.1]
      refine item.token.parse ?_
      refine head_append_of_blank item.after.2 (fun _ h => inl h) ?_
      intro d hd
      obtain rfl : c = d := by simpa using hd
      exact inr ⟨rfl, hc⟩
    cases items with
    | nil =>
      have htext : [','].intercalate ([item].map Item.text) = item.text := by
        simp [List.intercalate]
      rw [htext, parseItems, hmember ')' (inr rfl), ok_bind]
      simp only [skipWhitespace_append_cons item.after.2 (c := ')') (by decide)]
      rfl
    | cons next items =>
      have htext : [','].intercalate ((item :: next :: items).map Item.text) ++ ')' :: rest =
          item.text ++ ',' :: ([','].intercalate ((next :: items).map Item.text) ++
            ')' :: rest) := by
        simp [List.intercalate]
      rw [htext, parseItems, hmember ',' (inl rfl), ok_bind]
      simp only [skipWhitespace_append_cons item.after.2 (c := ',') (by decide)]
      rw [ih (by simp) (by simpa using hroom)]
      rfl

/-! ## What follows a predicate -/

def Starts (t : Text) : Prop :=
  ∃ (bang : Bool) (key : Key) (u : Text), t = (if bang then ['!'] else []) ++ (key.1.value ++ u)

def Follows (rest : Text) : Prop :=
  ∃ (ws : Blanks) (t : Text), rest = ws.1 ++ t ∧ (t = [] ∨ ws.1 ≠ [] ∧ Starts t)

lemma Follows.head (h : Follows rest) (hP : ∀ c, isWhitespace c = true → P c) :
    ∀ c ∈ rest.head?, P c := by
  obtain ⟨⟨ws, hws⟩, t, rfl, ht⟩ := h
  cases ws with
  | nil =>
    rcases ht with rfl | ⟨hne, -⟩
    · simp
    · exact absurd rfl hne
  | cons d ws =>
    intro c hc
    obtain rfl : d = c := by simpa using hc
    exact hP d (hws d mem_cons_self)

lemma Follows.delimited (h : Follows rest) (inList : Bool) : Delimited inList rest :=
  h.head fun _ hc => inl hc

lemma Follows.endsKey (h : Follows rest) : EndsKey rest :=
  h.head fun c hc => by simp [Routing.endsKey, hc]

/-- A key is never mistaken for a keyword: the character after the keyword's letters
would be the key's own, and no character of a key is a word boundary. -/
theorem afterKeyword_key (keyword : Text) (hslash : '/' ∉ keyword) (key : Key) (u : Text) :
    afterKeyword keyword (key.1.value ++ u) = none := by
  unfold afterKeyword
  refine if_neg ?_
  rintro ⟨hword, hboundary⟩
  obtain ⟨after, hafter⟩ := List.isPrefixOf_iff_prefix.mp hword
  have hlt : keyword.length < key.1.value.length := by
    by_contra hge
    have hmem : '/' ∈ (keyword ++ after).take keyword.length := by
      rw [hafter, List.take_append]
      exact List.mem_append_left _
        (by rw [List.take_of_length_le (by omega)]; exact key.1.slash_mem)
    rw [List.take_left] at hmem
    exact hslash hmem
  have hdrop : (key.1.value ++ u).drop keyword.length =
      key.1.value.drop keyword.length ++ u := List.drop_append_of_le_length hlt.le
  rw [hdrop] at hboundary
  cases hrest : key.1.value.drop keyword.length with
  | nil =>
    have := congrArg List.length hrest
    simp only [List.length_drop, List.length_nil] at this
    omega
  | cons c t =>
    have hc : isTagChar c = true := by
      refine key.1.isTagChar_of_mem (List.mem_of_mem_drop (i := keyword.length) ?_)
      rw [hrest]
      exact mem_cons_self
    have hends := endsKey_of_isTagChar hc
    rw [hrest] at hboundary
    simp only [cons_append, List.head?_cons, Option.all_some, Bool.or_eq_true,
      beq_iff_eq] at hboundary
    simp only [Routing.endsKey, Bool.or_eq_false_iff] at hends
    rcases hboundary with hspace | rfl
    · exact absurd hspace (by simp [hends.1])
    · exact absurd hends.2 (by decide)

variable {checkpoint : Text}

lemma parseOperatorTail_bang {key : QualifiedTag} (h : skipWhitespace checkpoint = '!' :: c :: t)
    (hc : c ≠ '=') : parseOperatorTail key checkpoint = .ok (none, checkpoint) := by
  rw [parseOperatorTail, h]
  split
  next heq => exact absurd (List.cons.inj heq).1 (by decide)
  next heq => exact absurd (List.cons.inj (List.cons.inj heq).2).1 hc
  next => rfl
  next _ hbang => exact absurd rfl (hbang _)

lemma parseOperatorTail_word {key : QualifiedTag} (word : Text)
    (h : skipWhitespace checkpoint = word) (hhead : ∀ c ∈ word.head?, c ≠ '=' ∧ c ≠ '!') :
    parseOperatorTail key checkpoint =
      match afterKeyword keywordIn word, afterKeyword keywordNotIn word with
      | some after, _ => do
          let (values, rest) ← parseSet (skipWhitespace after)
          pure (some (.isIn key values), rest)
      | none, some after => do
          let (values, rest) ← parseSet (skipWhitespace after)
          pure (some (.notIn key values), rest)
      | none, none => pure (none, checkpoint) := by
  rw [parseOperatorTail, h]
  split
  next => exact absurd rfl (hhead '=' rfl).1
  next => exact absurd rfl (hhead '!' rfl).2
  next => exact absurd rfl (hhead '!' rfl).2
  next => rfl

variable (key : QualifiedTag)

lemma parseOperatorTail_follows (h : Follows rest) :
    parseOperatorTail key rest = .ok (none, rest) := by
  obtain ⟨ws, t, rfl, ht⟩ := h
  rcases ht with rfl | ⟨-, bang, next, u, rfl⟩
  · have hskip : skipWhitespace (ws.1 ++ []) = [] := by
      rw [skipWhitespace_append ws.2]
      rfl
    rw [parseOperatorTail, hskip]
    rfl
  · obtain ⟨c, v, hvalue, hc⟩ := exists_key_cons next.1
    have hends := endsKey_of_isTagChar hc
    simp only [Routing.endsKey, Bool.or_eq_false_iff, decide_eq_false_iff_not, mem_cons,
      not_mem_nil, or_false, not_or] at hends
    obtain ⟨hspace, heq, hbang, -⟩ := hends
    cases bang with
    | true =>
      refine parseOperatorTail_bang (c := c) (t := v ++ u) ?_ heq
      rw [hvalue]
      exact skipWhitespace_append_cons ws.2 (by decide) _
    | false =>
      have hin := afterKeyword_key keywordIn (by decide) next u
      have hnotin := afterKeyword_key keywordNotIn (by decide) next u
      rw [parseOperatorTail_word (next.1.value ++ u), hin, hnotin]
      · rfl
      · rw [hvalue]
        exact skipWhitespace_append_cons ws.2 hspace _
      · intro d hd
        rw [hvalue] at hd
        obtain rfl : c = d := by simpa using hd
        exact ⟨heq, hbang⟩

/-! ## Reading a clause -/

lemma parsePredicate_key (h : c ≠ '!') : parsePredicate (c :: t) = (do
      let (key, rest) ← parseKey (c :: t)
      let (predicate, rest) ← parseOperatorTail key rest
      pure (predicate.getD (.exist key), rest)) := by
  rw [parsePredicate]
  simpa using h

variable {after : Text}

lemma parsePredicate_append (key : Key) {predicate : Option Predicate} (hends : EndsKey rest)
    (htail : parseOperatorTail key.1 rest = .ok (predicate, after)) :
    parsePredicate (key.1.value ++ rest) = .ok (predicate.getD (.exist key.1), after) := by
  have hkey := parseKey_append key hends
  obtain ⟨c, v, hvalue, hc⟩ := exists_key_cons key.1
  have hbang : c ≠ '!' := by
    rintro rfl
    exact absurd hc (by decide)
  rw [hvalue, cons_append] at hkey ⊢
  rw [parsePredicate_key hbang, hkey, ok_bind]
  show (parseOperatorTail key.1 rest >>= fun _ => _) = _
  rw [htail, ok_bind]
  rfl

lemma afterKeyword_append {keyword : Text} (ws : Blanks) :
    afterKeyword keyword (keyword ++ (ws.1 ++ '(' :: after)) = some (ws.1 ++ '(' :: after) := by
  unfold afterKeyword
  have hdrop : (keyword ++ (ws.1 ++ '(' :: after)).drop keyword.length = ws.1 ++ '(' :: after :=
    List.drop_left
  rw [hdrop, if_pos]
  refine ⟨List.isPrefixOf_iff_prefix.mpr (List.prefix_append _ _), ?_⟩
  have hhead : ∀ c ∈ (ws.1 ++ '(' :: after).head?, (isWhitespace c || c == '(') = true :=
    head_append_of_blank ws.2 (fun c hc => by simp [hc]) fun c hc => by
      obtain rfl : '(' = c := by simpa using hc
      decide
  cases hcase : (ws.1 ++ '(' :: after).head? with
  | none => rfl
  | some c => exact hhead c hcase

lemma parseSet_spell {items : List Item} (hne : items ≠ [])
    (hlen : items.length ≤ selectorMaxSetValues) (ws : Blanks) (rest : Text) :
    parseSet (skipWhitespace
        (ws.1 ++ '(' :: ([','].intercalate (items.map Item.text) ++ [')'] ++ rest))) =
      .ok (items.map fun i => i.token.value, rest) := by
  rw [skipWhitespace_append_cons ws.2 (by decide), parseSet, append_assoc]
  exact parseItems_spell hne hlen rest

lemma parseOperatorTail_equals (h : skipWhitespace checkpoint = '=' :: after)
    (hvalue : parseValue false (skipWhitespace after) = .ok (value, rest)) :
    parseOperatorTail key checkpoint = .ok (some (.equals key value), rest) := by
  rw [parseOperatorTail, h]
  show (parseValue false _ >>= fun _ => _) = _
  rw [hvalue]
  rfl

lemma parseOperatorTail_notEquals (h : skipWhitespace checkpoint = '!' :: '=' :: after)
    (hvalue : parseValue false (skipWhitespace after) = .ok (value, rest)) :
    parseOperatorTail key checkpoint = .ok (some (.notEquals key value), rest) := by
  rw [parseOperatorTail, h]
  show (parseValue false _ >>= fun _ => _) = _
  rw [hvalue]
  rfl

lemma parseOperatorTail_in (key : QualifiedTag) {checkpoint after rest : Text}
    {values : List Text} (ws : Blanks)
    (h : skipWhitespace checkpoint = keywordIn ++ (ws.1 ++ '(' :: after))
    (hset : parseSet (skipWhitespace (ws.1 ++ '(' :: after)) = .ok (values, rest)) :
    parseOperatorTail key checkpoint = .ok (some (.isIn key values), rest) := by
  rw [parseOperatorTail_word _ h (by simp [keywordIn]), afterKeyword_append ws]
  show (parseSet _ >>= fun _ => _) = _
  rw [hset]
  rfl

lemma parseOperatorTail_notIn (key : QualifiedTag) {checkpoint after rest : Text}
    {values : List Text} (ws : Blanks)
    (h : skipWhitespace checkpoint = keywordNotIn ++ (ws.1 ++ '(' :: after))
    (hset : parseSet (skipWhitespace (ws.1 ++ '(' :: after)) = .ok (values, rest)) :
    parseOperatorTail key checkpoint = .ok (some (.notIn key values), rest) := by
  have hshort : afterKeyword keywordIn (keywordNotIn ++ (ws.1 ++ '(' :: after)) = none :=
    if_neg fun hword => absurd hword.1 (by simp [keywordIn, keywordNotIn, List.isPrefixOf])
  rw [parseOperatorTail_word _ h (by simp [keywordNotIn]), hshort, afterKeyword_append ws]
  show (parseSet _ >>= fun _ => _) = _
  rw [hset]
  rfl

/-- **A clause is read as its predicate**, whatever admissible text follows it. -/
theorem parsePredicate_clause {clause : Clause} (hbounded : clause.Bounded) (hrest : Follows rest) :
    parsePredicate (clause.text ++ rest) = .ok (clause.predicate, rest) := by
  have hblank (ws : Blanks) {c : Char} {t : Text} (hc : endsKey c = true) :
      EndsKey (ws.1 ++ c :: t) :=
    head_append_of_blank ws.2 (fun d hd => by simp [endsKey, hd]) fun d hd => by
      obtain rfl : c = d := by simpa using hd
      exact hc
  cases clause with
  | exist key =>
    exact parsePredicate_append key hrest.endsKey (parseOperatorTail_follows key.1 hrest)
  | notExists key =>
    show parsePredicate ('!' :: (key.1.value ++ rest)) = _
    rw [parsePredicate, parseKey_append key hrest.endsKey]
    rfl
  | compare negated key before after token =>
    have hvalue : parseValue false (skipWhitespace (after.1 ++ (token.text ++ rest))) =
        .ok (token.value, rest) := by
      rw [skipWhitespace_append after.2, token.spells.skipWhitespace token.bounded.1]
      exact token.parse (hrest.delimited false)
    simp only [Clause.text, append_assoc]
    cases negated with
    | false =>
      have htail := parseOperatorTail_equals key.1
        (skipWhitespace_append_cons before.2 (by decide) _) hvalue
      exact parsePredicate_append key (hblank before (by decide)) htail
    | true =>
      have htail := parseOperatorTail_notEquals key.1
        (skipWhitespace_append_cons before.2 (by decide) _) hvalue
      exact parsePredicate_append key (hblank before (by decide)) htail
  | member negated key before gap after items =>
    obtain ⟨hne, hlen⟩ := hbounded
    have hset := parseSet_spell hne hlen after rest
    -- The gap before the keyword ends the key.
    have hends (t : Text) : EndsKey (before.1 ++ t) := by
      obtain ⟨ws, hws⟩ := before
      cases ws with
      | nil => exact absurd rfl gap
      | cons d ws =>
        intro c hc
        obtain rfl : d = c := by simpa using hc
        simp [endsKey, hws d mem_cons_self]
    simp only [Clause.text, append_assoc]
    cases negated with
    | false =>
      have htail := parseOperatorTail_in key.1 after
        (skipWhitespace_append_cons before.2 (c := 'i') (by decide) _) hset
      exact parsePredicate_append key (hends _) htail
    | true =>
      have htail := parseOperatorTail_notIn key.1 after
        (skipWhitespace_append_cons before.2 (c := 'n') (by decide) _) hset
      exact parsePredicate_append key (hends _) htail

/-! ## Reading a spelled input -/

def spell : List (Clause × Blanks) → Text
  | [] => []
  | (clause, gap) :: rest => clause.text ++ (gap.1 ++ spell rest)

def Spaced : List (Clause × Blanks) → Prop
  | [] => True
  | [_] => True
  | (_, gap) :: next :: rest => gap.1 ≠ [] ∧ Spaced (next :: rest)

lemma Clause.starts (clause : Clause) (rest : Text) : Starts (clause.text ++ rest) := by
  cases clause with
  | exist key => exact ⟨false, key, rest, rfl⟩
  | notExists key => exact ⟨true, key, rest, rfl⟩
  | compare negated key before after token | member negated key before gap after items =>
    exact ⟨false, key, _, by simp only [Clause.text, append_assoc]; rfl⟩

lemma Starts.skipWhitespace (h : Starts t) :
    ∃ c u, t = c :: u ∧ Routing.skipWhitespace t = c :: u := by
  obtain ⟨bang, key, u, rfl⟩ := h
  obtain ⟨c, v, hvalue, hc⟩ := exists_key_cons key.1
  have hends := endsKey_of_isTagChar hc
  simp only [Routing.endsKey, Bool.or_eq_false_iff] at hends
  cases bang with
  | true => exact ⟨'!', key.1.value ++ u, rfl, skipWhitespace_cons (by decide) _⟩
  | false =>
    refine ⟨c, v ++ u, by rw [hvalue]; rfl, ?_⟩
    rw [hvalue]
    exact skipWhitespace_cons hends.1 _

variable {clauses : List (Clause × Blanks)}

lemma follows_spell {gap : Blanks} (h : clauses ≠ [] → gap.1 ≠ []) :
    Follows (gap.1 ++ spell clauses) := by
  refine ⟨gap, spell clauses, rfl, ?_⟩
  cases clauses with
  | nil => exact inl rfl
  | cons head rest => exact inr ⟨h (by simp), head.1.starts _⟩

lemma Spaced.gap {head : Clause × Blanks} {rest : List (Clause × Blanks)}
    (h : Spaced (head :: rest)) : (rest ≠ [] → head.2.1 ≠ []) ∧ Spaced rest := by
  cases rest with
  | nil => exact ⟨fun hne => absurd rfl hne, trivial⟩
  | cons next rest => exact ⟨fun _ => h.1, h.2⟩

/-- **A spelled input is read as its clauses.** -/
theorem parseLoop_spell (hspaced : Spaced clauses) (hbounded : ∀ clause ∈ clauses, clause.1.Bounded)
    (lead : Blanks) {fuel : ℕ} (hfuel : clauses.length < fuel) {room : Option ℕ}
    (hroom : ∀ n ∈ room, clauses.length ≤ n) :
    parseLoop fuel room (lead.1 ++ spell clauses) = .ok (clauses.map fun c => c.1.predicate) := by
  induction clauses generalizing fuel room lead with
  | nil =>
    obtain ⟨fuel, rfl⟩ : ∃ n, fuel = n + 1 := ⟨fuel - 1, by simp at hfuel; omega⟩
    have hskip : skipWhitespace (lead.1 ++ spell []) = [] := by
      rw [skipWhitespace_append lead.2]
      rfl
    rw [parseLoop, hskip]
    rfl
  | cons head rest ih =>
    obtain ⟨fuel, rfl⟩ : ∃ n, fuel = n + 1 := ⟨fuel - 1, by simp at hfuel; omega⟩
    obtain ⟨clause, gap⟩ := head
    obtain ⟨hgap, hrest⟩ := hspaced.gap
    have hstarts : Starts (spell ((clause, gap) :: rest)) := clause.starts _
    obtain ⟨c, u, hcons, hskip⟩ := hstarts.skipWhitespace
    have hread : parsePredicate (c :: u) = .ok (clause.predicate, gap.1 ++ spell rest) := by
      rw [← hcons]
      exact parsePredicate_clause (hbounded _ mem_cons_self) (follows_spell hgap)
    have hnext : parseLoop fuel (room.map (· - 1)) (gap.1 ++ spell rest) =
        .ok (rest.map fun c => c.1.predicate) := by
      refine ih hrest (fun c hc => hbounded c (List.mem_cons_of_mem _ hc)) gap
        (by simp at hfuel; omega) ?_
      intro n hn
      obtain ⟨m, hm, rfl⟩ := Option.mem_map.mp hn
      have := hroom m hm
      simp only [List.length_cons] at this
      omega
    have hzero : room ≠ some 0 := by
      rintro rfl
      exact absurd (hroom 0 rfl) (by simp)
    rw [parseLoop, skipWhitespace_append lead.2, hskip]
    show (if room = some 0 then _ else parsePredicate (c :: u) >>= fun _ => _) = _
    rw [if_neg hzero, hread, ok_bind]
    show (parseLoop fuel (room.map (· - 1)) (gap.1 ++ spell rest) >>= fun _ => _) = _
    rw [hnext]
    rfl

lemma length_le_length_spell (clauses : List (Clause × Blanks)) :
    clauses.length ≤ (spell clauses).length := by
  induction clauses with
  | nil => exact le_rfl
  | cons head rest ih =>
    obtain ⟨c, u, hcons, -⟩ := (head.1.starts []).skipWhitespace
    rw [List.append_nil] at hcons
    rw [spell, hcons]
    simp only [List.length_cons, List.length_append, cons_append]
    omega

lemma parsePredicateStream_spell (hspaced : Spaced clauses)
    (hbounded : ∀ clause ∈ clauses, clause.1.Bounded) (lead : Blanks) {enforce : Bool}
    (hcount : enforce = true → clauses.length ≤ selectorMaxPredicates) :
    parsePredicateStream (lead.1 ++ spell clauses) enforce =
      .ok (clauses.map fun c => c.1.predicate) := by
  refine parseLoop_spell hspaced hbounded lead ?_ ?_
  · have := length_le_length_spell clauses
    rw [List.length_append]
    omega
  · intro n hn
    cases enforce with
    | false => cases hn
    | true =>
      obtain rfl : selectorMaxPredicates = n := by simpa using hn
      exact hcount rfl

end Radiata.Routing
