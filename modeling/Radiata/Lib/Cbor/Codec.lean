import Radiata.Lib.Cbor.Decoder

/-!
# Typed codecs

A codec of a type is how its values are written as data items and how a decoder
reads them back off the input, together with the law that the second inverts the
first.  Records are definite arrays with one element per field, and `Fields`
builds them field by field; sequences are definite arrays of one element type.

The law is only claimed below the 64-bit length bound, where the format's length
arguments are exact.
-/

namespace Radiata.Lib.Cbor

structure Codec (α : Type) where
  toItem : α → Item
  parse : List UInt8 → Option (α × List UInt8)
  parse_encode : ∀ a rest, (toItem a).encode.length < 2 ^ 64 →
    parse ((toItem a).encode ++ rest) = some (a, rest)

def parserOf {α : Type} (read : List UInt8 → Option (α × ℕ)) (input : List UInt8) :
    Option (α × List UInt8) :=
  (read input).map fun (a, consumed) => (a, input.drop consumed)

lemma parserOf_append {α : Type} {read : List UInt8 → Option (α × ℕ)} {front rest : List UInt8}
    {a : α} (h : read (front ++ rest) = some (a, front.length)) :
    parserOf read (front ++ rest) = some (a, rest) := by
  simp [parserOf, h]

namespace Codec

lemma readU64_append (n : UInt64) (rest : List UInt8) :
    readU64 ((Item.uint n).encode ++ rest) = some (n, (Item.uint n).encode.length) := by
  rw [Item.encode, readU64, typedArgument_header (by decide) n.toNat_lt, length_header]
  simp

def u64 : Codec UInt64 where
  toItem n := .uint n
  parse := parserOf readU64
  parse_encode n rest _ := parserOf_append (readU64_append n rest)

def u8 : Codec UInt8 where
  toItem n := .uint n.toUInt64
  parse := parserOf readU8
  parse_encode n rest _ := by
    have hn : n.toNat < 256 := n.toNat_lt
    apply parserOf_append
    rw [Item.encode, readU8, UInt8.toNat_toUInt64, typedArgument_header (by decide) (by omega),
      length_header, Option.bind_some]
    simp [hn]

variable (input : List UInt8)

def readU32 : Option (UInt32 × ℕ) :=
  (typedArgument 0 input).bind fun (value, len) =>
    if value < 2 ^ 32 then some (UInt32.ofNat value, len) else none

def u32 : Codec UInt32 where
  toItem n := .uint n.toUInt64
  parse := parserOf readU32
  parse_encode n rest _ := by
    have hn : n.toNat < 2 ^ 32 := n.toNat_lt
    apply parserOf_append
    rw [Item.encode, readU32, UInt32.toNat_toUInt64, typedArgument_header (by decide) (by omega),
      length_header, Option.bind_some]
    show (if n.toNat < 2 ^ 32 then _ else _) = _
    rw [if_pos hn, UInt32.ofNat_toNat]

def readU16 : Option (UInt16 × ℕ) :=
  (typedArgument 0 input).bind fun (value, len) =>
    if value < 2 ^ 16 then some (UInt16.ofNat value, len) else none

def u16 : Codec UInt16 where
  toItem n := .uint n.toUInt64
  parse := parserOf readU16
  parse_encode n rest _ := by
    have hn : n.toNat < 2 ^ 16 := n.toNat_lt
    apply parserOf_append
    rw [Item.encode, readU16, UInt16.toNat_toUInt64, typedArgument_header (by decide) (by omega),
      length_header, Option.bind_some]
    show (if n.toNat < 2 ^ 16 then _ else _) = _
    rw [if_pos hn, UInt16.ofNat_toNat]

abbrev Signed64 := {n : ℤ // -2 ^ 63 ≤ n ∧ n < 2 ^ 63}

def readI64 : Option (Signed64 × ℕ) :=
  match typedArgument 0 input with
  | some (value, len) =>
    if h : value < 2 ^ 63 then some (⟨value, by omega⟩, len) else none
  | none => (typedArgument 1 input).bind fun (value, len) =>
    if h : value < 2 ^ 63 then some (⟨-1 - value, by omega⟩, len) else none

lemma typedArgument_other {major other arg : ℕ} (hmajor : major ≤ 7) (h : major ≠ other)
    (rest : List UInt8) : typedArgument other (header major arg ++ rest) = none := by
  rw [typedArgument, majorType_header hmajor, if_neg fun heq => h (Option.some.inj heq)]

def i64 : Codec Signed64 where
  toItem n := if 0 ≤ n.1 then .uint (UInt64.ofNat n.1.toNat) else .nint
    (UInt64.ofNat (-1 - n.1).toNat)
  parse := parserOf readI64
  parse_encode n rest _ := by
    obtain ⟨n, hlow, hhigh⟩ := n
    apply parserOf_append
    by_cases hn : 0 ≤ n
    · have hlt : n.toNat < 2 ^ 64 := by omega
      have hnat : (UInt64.ofNat n.toNat).toNat = n.toNat := UInt64.toNat_ofNat_of_lt' hlt
      rw [if_pos hn, Item.encode, readI64, hnat, typedArgument_header (by decide) (by omega),
        length_header]
      show (if h : n.toNat < 2 ^ 63 then _ else _) = _
      rw [dif_pos (by omega)]
      simp only [Int.toNat_of_nonneg hn]
    · have hlt : (-1 - n).toNat < 2 ^ 64 := by omega
      have hnat : (UInt64.ofNat (-1 - n).toNat).toNat = (-1 - n).toNat :=
        UInt64.toNat_ofNat_of_lt' hlt
      rw [if_neg hn, Item.encode, readI64, hnat, typedArgument_other (by decide) (by decide),
        typedArgument_header (by decide) (by omega), length_header]
      show (if h : (-1 - n).toNat < 2 ^ 63 then _ else _) = _
      have hback : -1 - ((-1 - n).toNat : ℤ) = n := by omega
      rw [dif_pos (by omega)]
      simp only [hback]

def bool : Codec Bool where
  toItem b := .bool b
  parse := parserOf readBool
  parse_encode b rest _ := by
    apply parserOf_append
    cases b <;> rfl

def byteVec : Codec (List UInt8) where
  toItem payload := .bytes payload
  parse := parserOf readBytes
  parse_encode payload rest h := by
    have hlen : payload.length < 2 ^ 64 := by
      rw [Item.encode, List.length_append] at h
      omega
    apply parserOf_append
    rw [Item.encode, readBytes, readPayload_append (by decide) payload rest hlen,
      List.length_append, length_header]

def readText : Option (String × ℕ) :=
  (readStr input).bind fun (payload, len) =>
    (String.fromUTF8? (ByteArray.mk payload.toArray)).map fun s => (s, len)

def text : Codec String where
  toItem s := .text s
  parse := parserOf readText
  parse_encode s rest h := by
    have hlen : (utf8 s).length < 2 ^ 64 := by
      rw [Item.encode, List.length_append] at h
      omega
    have hback : String.fromUTF8? (ByteArray.mk (utf8 s).toArray) = some s := by
      have hbytes : ByteArray.mk (utf8 s).toArray = s.toByteArray := by simp [utf8]
      rw [hbytes, String.fromUTF8?, dif_pos s.isValidUTF8]
      rfl
    apply parserOf_append
    rw [Item.encode, readText, readStr, readPayload_append (by decide) _ rest hlen,
      Option.bind_some]
    simp [validUtf8_utf8, hback]

def parseArrayHeader : Option (ℕ × List UInt8) :=
  (readArray input).bind fun (count, consumed) =>
    count.map fun count => (count, input.drop consumed)

lemma readArray_append {count : ℕ} (h : count < 2 ^ 64) (rest : List UInt8) :
    readArray (header 4 count ++ rest) = some (some count, headerLen count) := by
  have hb := initialByte_bounds 4 count
  have hne : (header 4 count ++ rest).head?.map UInt8.toNat ≠ some 0x9F := by
    rw [header_eq, List.cons_append, List.head?_cons, Option.map_some,
      toNat_initialByte (by decide)]
    exact fun heq => by have := Option.some.inj heq; omega
  rw [readArray, readContainer, if_neg hne, typedArgument_header (by decide) h]
  rfl

lemma parseArrayHeader_append {count : ℕ} (h : count < 2 ^ 64) (rest : List UInt8) :
    parseArrayHeader (header 4 count ++ rest) = some (count, rest) := by
  rw [parseArrayHeader, readArray_append h]
  simp [List.drop_left' (length_header 4 count)]

def parseMany {α : Type} (parse : List UInt8 → Option (α × List UInt8)) :
    ℕ → List UInt8 → Option (List α × List UInt8)
  | 0, input => some ([], input)
  | count + 1, input => do
      let (a, input) ← parse input
      let (as, input) ← parseMany parse count input
      pure (a :: as, input)

lemma length_encodeList_cons (i : Item) (is : List Item) :
    (Item.encodeList (i :: is)).length = i.encode.length + (Item.encodeList is).length := by
  rw [Item.encodeList, List.length_append]

lemma parseMany_encodeList {α : Type} (c : Codec α) (as : List α) (rest : List UInt8)
    (h : (Item.encodeList (as.map c.toItem)).length < 2 ^ 64) :
    parseMany c.parse as.length (Item.encodeList (as.map c.toItem) ++ rest) = some (as, rest) := by
  induction as with
  | nil => rfl
  | cons a as ih =>
    rw [List.map_cons, length_encodeList_cons] at h
    rw [List.map_cons, Item.encodeList, List.append_assoc, List.length_cons, parseMany,
      c.parse_encode a _ (by omega)]
    simp [ih (by omega)]

def vec {α : Type} (c : Codec α) : Codec (List α) where
  toItem as := .array (as.map c.toItem)
  parse input := do
    let (count, input) ← parseArrayHeader input
    parseMany c.parse count input
  parse_encode as rest h := by
    have hcount := Item.length_le_length_encodeList (as.map c.toItem)
    rw [Item.encode, List.length_append] at h
    rw [List.length_map] at hcount
    rw [Item.encode, List.append_assoc, List.length_map, parseArrayHeader_append (by omega)]
    exact parseMany_encodeList c as rest (by omega)

def iso {α β : Type} (c : Codec α) (make : α → β) (parts : β → α)
    (h : ∀ b, make (parts b) = b) : Codec β where
  toItem b := c.toItem (parts b)
  parse input := (c.parse input).map fun (a, rest) => (make a, rest)
  parse_encode b rest hlen := by
    simp [c.parse_encode _ _ hlen, h]

def chars : Codec (List Char) := text.iso String.toList String.ofList fun _ => by simp

lemma readNull_encode {i : Item} (h : i ≠ .null) (rest : List UInt8) :
    readNull (i.encode ++ rest) = none := by
  have hheader {major : ℕ} (hmajor : major ≤ 5) (arg : ℕ) (tail : List UInt8) :
      readNull (header major arg ++ tail) = none := by
    have hb := initialByte_bounds major arg
    rw [header_eq, List.cons_append, readNull, toNat_initialByte (by omega), if_neg (by omega)]
  cases i with
  | uint n | nint n => exact hheader (by decide) _ _
  | bytes payload | text s | array items | map entries =>
    rw [Item.encode, List.append_assoc]; exact hheader (by decide) _ _
  | bool b => cases b <;> rfl
  | null => exact absurd rfl h

def option {α : Type} (c : Codec α) (h : ∀ a, c.toItem a ≠ .null) : Codec (Option α) where
  toItem a := a.elim .null c.toItem
  parse input :=
    match readNull input with
    | some consumed => some (none, input.drop consumed)
    | none => (c.parse input).map fun (a, rest) => (some a, rest)
  parse_encode a rest hlen := by
    cases a with
    | none => rfl
    | some a =>
      have hparse : c.parse (((some a).elim .null c.toItem).encode ++ rest) = some (a, rest) :=
        c.parse_encode a rest hlen
      have hnull : readNull (((some a).elim .null c.toItem).encode ++ rest) = none :=
        readNull_encode (h a) rest
      rw [hnull, hparse]
      rfl

end Codec

structure Fields (α : Type) where
  arity : ℕ
  toItems : α → List Item
  parse : List UInt8 → Option (α × List UInt8)
  length_toItems : ∀ a, (toItems a).length = arity
  parse_encode : ∀ a rest, (Item.encodeList (toItems a)).length < 2 ^ 64 →
    parse (Item.encodeList (toItems a) ++ rest) = some (a, rest)

namespace Fields

def last {α : Type} (c : Codec α) : Fields α where
  arity := 1
  toItems a := [c.toItem a]
  parse := c.parse
  length_toItems _ := rfl
  parse_encode a rest h := by
    rw [Item.encodeList, Item.encodeList, List.append_nil] at h ⊢
    exact c.parse_encode a rest h

def cons {α β : Type} (c : Codec α) (f : Fields β) : Fields (α × β) where
  arity := f.arity + 1
  toItems ab := c.toItem ab.1 :: f.toItems ab.2
  parse input := do
    let (a, input) ← c.parse input
    let (b, input) ← f.parse input
    pure ((a, b), input)
  length_toItems ab := by rw [List.length_cons, f.length_toItems]
  parse_encode ab rest h := by
    rw [Codec.length_encodeList_cons] at h
    rw [Item.encodeList, List.append_assoc, c.parse_encode ab.1 _ (by omega)]
    simp [f.parse_encode ab.2 rest (by omega)]

end Fields

namespace Codec

def array {α : Type} (f : Fields α) : Codec α where
  toItem a := .array (f.toItems a)
  parse input := do
    let (count, input) ← parseArrayHeader input
    if count = f.arity then f.parse input else none
  parse_encode a rest h := by
    have hcount := Item.length_le_length_encodeList (f.toItems a)
    rw [Item.encode, List.length_append] at h
    rw [Item.encode, List.append_assoc, parseArrayHeader_append (by omega)]
    simp [f.length_toItems, f.parse_encode a rest (by omega)]

end Codec

end Radiata.Lib.Cbor
