import Radiata.Protocol.Tag

/-!
# Label selectors

A selector is a conjunction of predicates over labels.  The parser is a cursor over
the input; it is modelled by the text still to be read, so restoring a checkpoint is
keeping the old text.  Each predicate starts with a key or with `!` and a key, and
whether a key is followed by an operator is decided by looking past white space.

Parsing ends by writing the predicates in canonical form, sorting and deduplicating
the texts, and reading the joined text again.
-/

namespace Radiata

open Lib

/-! ## Bounded values -/

def labelValueMaxBytes : ℕ := 256

def validateBoundedValue (value : Text) (context : String) : Result Unit :=
  require (value ≠ [] ∧ utf8Len value ≤ labelValueMaxBytes) (.invalidInput context)

structure LabelValue where
  text : Text
  valid : text ≠ [] ∧ utf8Len text ≤ labelValueMaxBytes
deriving DecidableEq

def LabelValue.parse (value : Text) : Result LabelValue :=
  if h : value ≠ [] ∧ utf8Len value ≤ labelValueMaxBytes then .ok ⟨value, h⟩
  else .error (.invalidInput "label value")

namespace Routing

open Protocol

def selectorInputMaxBytes : ℕ := 1024
def selectorMaxPredicates : ℕ := 16
def selectorMaxSetValues : ℕ := 16

def reservedTypeLabelKey : Text := "radiata.woooo.tech/resources/type".toList
def reservedUriLabelKey : Text := "radiata.woooo.tech/resources/uri".toList

def keywordIn : Text := ['i', 'n']
def keywordNotIn : Text := ['n', 'o', 't', 'i', 'n']

inductive Predicate where
  | exist (key : QualifiedTag)
  | notExists (key : QualifiedTag)
  | equals (key : QualifiedTag) (value : Text)
  | notEquals (key : QualifiedTag) (value : Text)
  | isIn (key : QualifiedTag) (values : List Text)
  | notIn (key : QualifiedTag) (values : List Text)
deriving DecidableEq

abbrev Lookup := QualifiedTag → Option Text

def Predicate.matches (lookup : Lookup) : Predicate → Bool
  | exist key => (lookup key).isSome
  | notExists key => (lookup key).isNone
  | equals key value => lookup key == some value
  | notEquals key value => (lookup key).all (· != value)
  | isIn key values => (lookup key).any fun found => values.any (· == found)
  | notIn key values => (lookup key).all fun found => !values.any (· == found)

/-! ## Canonical text -/

def escapeChar (c : Char) : Text :=
  if c = ' ' then ['\\', ' ']
  else if c = '\t' then ['\\', 't']
  else if c = '\n' then ['\\', 'n']
  else if c = '\r' then ['\\', 'r']
  else if c ∈ ['\\', ',', '(', ')', '=', '!'] then ['\\', c]
  else [c]

def escapeValue (value : Text) : Text := value.flatMap escapeChar

def unescape (escaped : Char) : Option Char :=
  if escaped = ' ' then some ' '
  else if escaped = 't' then some '\t'
  else if escaped = 'n' then some '\n'
  else if escaped = 'r' then some '\r'
  else if escaped ∈ ['\\', ',', '(', ')', '=', '!'] then some escaped
  else none

def canonicalSet (values : List Text) : Text := [','].intercalate ((canon values).map escapeValue)

def Predicate.canonical : Predicate → Text
  | exist key => key.value
  | notExists key => '!' :: key.value
  | equals key value => key.value ++ '=' :: escapeValue value
  | notEquals key value => key.value ++ '!' :: '=' :: escapeValue value
  | isIn key values => key.value ++ ' ' :: keywordIn ++ [' ', '('] ++ canonicalSet values ++ [')']
  | notIn key values => key.value ++ ' ' :: keywordNotIn ++
      [' ', '('] ++ canonicalSet values ++ [')']

/-! ## The parser -/

def skipWhitespace (rest : Text) : Text := rest.dropWhile isWhitespace

def endsKey (c : Char) : Bool := isWhitespace c || c ∈ ['=', '!', '(', ')', ',', '\\']

def Selectable (tag : QualifiedTag) : Prop :=
  tag.category = categoryLabels ∨
    tag.category = categoryResources ∧
      (tag.value = reservedTypeLabelKey ∨ tag.value = reservedUriLabelKey)

instance (tag : QualifiedTag) : Decidable (Selectable tag) := by unfold Selectable; infer_instance

def parseKey (rest : Text) : Result (QualifiedTag × Text) := do
  let tag ← QualifiedTag.parse (rest.takeWhile fun c => !endsKey c)
  require (Selectable tag) (.invalidInput "selector key")
  pure (tag, rest.dropWhile fun c => !endsKey c)

def readValue (inList : Bool) : Text → Result (Text × Text)
  | [] => .ok ([], [])
  | c :: rest =>
    if c = '\\' then
      match rest with
      | [] => .error (.invalidInput "selector escape")
      | e :: rest =>
        match unescape e with
        | none => .error (.invalidInput "selector escape")
        | some c => (readValue inList rest).map fun (value, rest) => (c :: value, rest)
    else if isWhitespace c then .ok ([], c :: rest)
    else if inList ∧ (c = ',' ∨ c = ')') then .ok ([], c :: rest)
    else if c ∈ ['(', ')', ',', '=', '!'] then .error (.invalidInput "selector value")
    else (readValue inList rest).map fun (value, rest) => (c :: value, rest)

def parseValue (inList : Bool) (rest : Text) : Result (Text × Text) := do
  let (value, rest) ← readValue inList rest
  validateBoundedValue value "selector value"
  pure (value, rest)

def parseItems : ℕ → Text → Result (List Text × Text)
  | 0, _ => .error (.resourceExhausted "selector set values")
  | room + 1, rest => do
      let (value, rest) ← parseValue true (skipWhitespace rest)
      match skipWhitespace rest with
      | ',' :: rest => do
          let (values, rest) ← parseItems room rest
          pure (value :: values, rest)
      | ')' :: rest => pure ([value], rest)
      | _ => throw (.invalidInput "selector set")

def parseSet : Text → Result (List Text × Text)
  | '(' :: rest => parseItems selectorMaxSetValues rest
  | _ => .error (.invalidInput "selector set")

def afterKeyword (keyword rest : Text) : Option Text :=
  if keyword.isPrefixOf rest ∧
      (rest.drop keyword.length).head?.all fun c => isWhitespace c || c == '(' then
    some (rest.drop keyword.length)
  else none

def parseOperatorTail (key : QualifiedTag) (checkpoint : Text) :
    Result (Option Predicate × Text) :=
  match skipWhitespace checkpoint with
  | '=' :: rest => do
      let (value, rest) ← parseValue false (skipWhitespace rest)
      pure (some (.equals key value), rest)
  | '!' :: '=' :: rest => do
      let (value, rest) ← parseValue false (skipWhitespace rest)
      pure (some (.notEquals key value), rest)
  | '!' :: _ => pure (none, checkpoint)
  | rest =>
    match afterKeyword keywordIn rest, afterKeyword keywordNotIn rest with
    | some after, _ => do
        let (values, rest) ← parseSet (skipWhitespace after)
        pure (some (.isIn key values), rest)
    | none, some after => do
        let (values, rest) ← parseSet (skipWhitespace after)
        pure (some (.notIn key values), rest)
    | none, none => pure (none, checkpoint)

def parsePredicate : Text → Result (Predicate × Text)
  | '!' :: rest => do
      let (key, rest) ← parseKey rest
      pure (.notExists key, rest)
  | rest => do
      let (key, rest) ← parseKey rest
      let (predicate, rest) ← parseOperatorTail key rest
      pure (predicate.getD (.exist key), rest)

/-- The predicate loop, with a bound on how many more there may be.  A predicate takes
at least one character, so one turn per character and one more is enough; running out
of turns cannot be reached. -/
def parseLoop : ℕ → Option ℕ → Text → Result (List Predicate)
  | 0, _, _ => .error (.invalidInput "selector input")
  | fuel + 1, room, rest =>
    match skipWhitespace rest with
    | [] => pure []
    | rest =>
      if room = some 0 then throw (.resourceExhausted "selector predicates")
      else do
        let (predicate, rest) ← parsePredicate rest
        let predicates ← parseLoop fuel (room.map (· - 1)) rest
        pure (predicate :: predicates)

def parsePredicateStream (input : Text) (enforcePredicateBound : Bool) :
    Result (List Predicate) :=
  parseLoop (input.length + 1) (if enforcePredicateBound then some selectorMaxPredicates else none)
    input

structure Selector where
  canonical : Text
  predicates : List Predicate
deriving DecidableEq

namespace Selector

def canonicalText (predicates : List Predicate) : Text :=
  [' '].intercalate (canon (predicates.map Predicate.canonical))

def parse (value : Text) : Result Selector := do
  require (value ≠ [] ∧ utf8Len value ≤ selectorInputMaxBytes) (.invalidInput "selector input")
  let predicates ← parsePredicateStream value true
  require (predicates ≠ []) (.invalidInput "selector input")
  let canonical := canonicalText predicates
  require (utf8Len canonical ≤ selectorInputMaxBytes) (.invalidInput "selector input")
  let reparsed ← parsePredicateStream canonical false
  pure ⟨canonical, reparsed⟩

def matchesWith (selector : Selector) (lookup : Lookup) : Bool :=
  selector.predicates.all (Predicate.matches lookup)

end Selector

end Routing

end Radiata
