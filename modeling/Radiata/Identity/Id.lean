import Radiata.Error
import Radiata.Lib.Text

/-!
# Canonical identifiers

Every identifier family is a fixed word, a separator and a fixed-length suffix of
lowercase letters and digits.  The families differ in their word alone, so they are
one type indexed by it.
-/

namespace Radiata

open Lib

def randomSuffixLen : ℕ := 21

def isSuffixChar (c : Char) : Bool := c.isDigit || c.isLower

def ValidId (family value : Text) : Prop :=
  utf8Len value = family.length + 1 + randomSuffixLen ∧ family.isPrefixOf value = true ∧
    value[family.length]? = some '-' ∧ (value.drop (family.length + 1)).all isSuffixChar = true

instance (family value : Text) : Decidable (ValidId family value) := by
  unfold ValidId
  infer_instance

structure CanonicalId (family : Text) where
  text : Text
  valid : ValidId family text
deriving DecidableEq

namespace CanonicalId

variable {family : Text}

def parse (family : Text) (context : String) (value : Text) : Result (CanonicalId family) :=
  if h : ValidId family value then .ok ⟨value, h⟩ else .error (.invalidInput context)

@[simp] lemma parse_text (id : CanonicalId family) (context : String) :
    parse family context id.text = .ok id :=
  dif_pos id.valid

lemma text_of_parse {context : String} {value : Text} {id : CanonicalId family}
    (h : parse family context value = .ok id) : id.text = value := by
  unfold parse at h
  split_ifs at h
  exact (Except.ok.inj h) ▸ rfl

lemma text_injective : Function.Injective (text : CanonicalId family → Text) := by
  rintro ⟨a, ha⟩ ⟨b, hb⟩ rfl
  rfl

/-- Identifiers are ordered by their text. -/
instance : LinearOrder (CanonicalId family) := LinearOrder.lift' text text_injective

end CanonicalId

abbrev NodeId := CanonicalId "node".toList
abbrev TraceId := CanonicalId "trace".toList
abbrev TransactionId := CanonicalId "txn".toList

def NodeId.parse : Text → Result NodeId := CanonicalId.parse _ "node id"
def TraceId.parse : Text → Result TraceId := CanonicalId.parse _ "trace id"
def TransactionId.parse : Text → Result TransactionId := CanonicalId.parse _ "transaction id"

end Radiata
