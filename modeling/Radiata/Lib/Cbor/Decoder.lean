import Radiata.Lib.Cbor.Item

/-!
# Decoder primitives

The reading operations of a CBOR decoder, on the input that is left.  They are
lenient in the way such decoders are: an argument is accepted in any of its
widths, so that whether an encoding is the shortest one is the caller's check.
Each operation returns what it read and how many bytes it consumed, or nothing
when the input is truncated or of another type.

`argument_header` and `eq_header_of_argument` tie the lenient reader to the
shortest header: the reader inverts it, and a read that consumed exactly the
shortest length read exactly the shortest header.
-/

namespace Radiata.Lib.Cbor

open Or (inl inr)

inductive DataType where
  | u8 | u16 | u32 | u64
  | i8 | i16 | i32 | i64
  | int
  | bool | null | undefined | simple
  | f16 | f32 | f64
  | bytes | bytesIndef
  | string | stringIndef
  | array | arrayIndef
  | map | mapIndef
  | tag | stop
  | unknown (initial : UInt8)
deriving DecidableEq, Repr

/-- The narrowest signed type of a negative integer, decided by the sign bit of
the first argument byte. -/
def signedType (rest : List UInt8) (narrow wide : DataType) : Option DataType :=
  rest.head?.map fun b => if b.toNat < 0x80 then narrow else wide

variable (additional : ℕ) (b : UInt8)

def unsignedType : DataType :=
  if additional ≤ 24 then .u8
  else if additional = 25 then .u16
  else if additional = 26 then .u32
  else if additional = 27 then .u64
  else .unknown b

def negativeType (rest : List UInt8) : Option DataType :=
  if additional ≤ 23 then some .i8
  else if additional = 24 then signedType rest .i8 .i16
  else if additional = 25 then signedType rest .i16 .i32
  else if additional = 26 then signedType rest .i32 .i64
  else if additional = 27 then signedType rest .i64 .int
  else some (.unknown b)

def lengthType (definite indefinite : DataType) (additional : ℕ) (b : UInt8) : DataType :=
  if additional ≤ 27 then definite
  else if additional = 31 then indefinite
  else .unknown b

def simpleType : DataType :=
  if additional ≤ 19 ∨ additional = 24 then .simple
  else if additional = 20 ∨ additional = 21 then .bool
  else if additional = 22 then .null
  else if additional = 23 then .undefined
  else if additional = 25 then .f16
  else if additional = 26 then .f32
  else if additional = 27 then .f64
  else if additional = 31 then .stop
  else .unknown b

/-- The type an initial byte announces, by its major type and additional
information. -/
def announcedType (major additional : ℕ) (b : UInt8) (rest : List UInt8) : Option DataType :=
  match major with
  | 0 => some (unsignedType additional b)
  | 1 => negativeType additional b rest
  | 2 => some (lengthType .bytes .bytesIndef additional b)
  | 3 => some (lengthType .string .stringIndef additional b)
  | 4 => some (lengthType .array .arrayIndef additional b)
  | 5 => some (lengthType .map .mapIndef additional b)
  | 6 => some (if additional ≤ 27 then .tag else .unknown b)
  | _ => some (simpleType additional b)

def datatype : List UInt8 → Option DataType
  | [] => none
  | b :: rest => announcedType (b.toNat / 32) (b.toNat % 32) b rest

def fixedArgument (width : ℕ) (rest : List UInt8) : Option (ℕ × ℕ) :=
  if width ≤ rest.length then some (beValue (rest.take width), 1 + width) else none

def argument : List UInt8 → Option (ℕ × ℕ)
  | [] => none
  | b :: rest =>
    let additional := b.toNat % 32
    if additional < 24 then some (additional, 1)
    else if additional = 24 then fixedArgument 1 rest
    else if additional = 25 then fixedArgument 2 rest
    else if additional = 26 then fixedArgument 4 rest
    else if additional = 27 then fixedArgument 8 rest
    else none

variable (input : List UInt8)

def majorType : Option ℕ := input.head?.map fun b => b.toNat / 32

def typedArgument (major : ℕ) (input : List UInt8) : Option (ℕ × ℕ) :=
  if majorType input = some major then argument input else none

def skipInteger : Option ℕ := (argument input).map Prod.snd

def readU64 : Option (UInt64 × ℕ) :=
  (typedArgument 0 input).map fun (value, len) => (UInt64.ofNat value, len)

def readU8 : Option (UInt8 × ℕ) :=
  (typedArgument 0 input).bind fun (value, len) =>
    if value < 256 then some (UInt8.ofNat value, len) else none

def readPayload (major : ℕ) (input : List UInt8) : Option (List UInt8 × ℕ) :=
  (typedArgument major input).bind fun (length, len) =>
    if len + length ≤ input.length then
      some ((input.drop len).take length, len + length)
    else none

def readBytes : Option (List UInt8 × ℕ) := readPayload 2 input

def readStr : Option (List UInt8 × ℕ) :=
  (readPayload 3 input).bind fun (payload, len) =>
    if validUtf8 payload then some (payload, len) else none

def readContainer (major indefinite : ℕ) (input : List UInt8) : Option (Option ℕ × ℕ) :=
  if input.head?.map UInt8.toNat = some indefinite then some (none, 1)
  else (typedArgument major input).map fun (count, len) => (some count, len)

def readArray : Option (Option ℕ × ℕ) := readContainer 4 0x9F input

def readMap : Option (Option ℕ × ℕ) := readContainer 5 0xBF input

def readBool : List UInt8 → Option (Bool × ℕ)
  | [] => none
  | b :: _ => if b.toNat = 0xF4 then some (false, 1)
      else if b.toNat = 0xF5 then some (true, 1) else none

def readNull : List UInt8 → Option ℕ
  | [] => none
  | b :: _ => if b.toNat = 0xF6 then some 1 else none

/-! ## The shortest header -/

/-- The initial byte of a header: the major type above, the additional information
below. -/
def initialByte (major arg : ℕ) : ℕ :=
  32 * major +
    if arg < 24 then arg else if arg < 2 ^ 8 then 24 else if arg < 2 ^ 16 then 25
    else if arg < 2 ^ 32 then 26 else 27

variable (major arg : ℕ)

lemma initialByte_bounds :
    32 * major ≤ initialByte major arg ∧ initialByte major arg ≤ 32 * major + 27 := by
  unfold initialByte
  split_ifs <;> omega

def argumentBytes (arg : ℕ) : List UInt8 := beBytes (headerLen arg - 1) arg

lemma header_eq :
    header major arg = UInt8.ofNat (initialByte major arg) :: argumentBytes arg := by
  unfold header initialByte argumentBytes headerLen
  split_ifs <;> rfl

lemma header_cases : (arg < 24 ∧ headerLen arg = 1 ∧ initialByte major arg = 32 * major + arg) ∨
    (24 ≤ arg ∧ arg < 2 ^ 8 ∧ headerLen arg = 2 ∧ initialByte major arg = 32 * major + 24) ∨
    (2 ^ 8 ≤ arg ∧ arg < 2 ^ 16 ∧ headerLen arg = 3 ∧
      initialByte major arg = 32 * major + 25) ∨
    (2 ^ 16 ≤ arg ∧ arg < 2 ^ 32 ∧ headerLen arg = 5 ∧
      initialByte major arg = 32 * major + 26) ∨
    (2 ^ 32 ≤ arg ∧ headerLen arg = 9 ∧ initialByte major arg = 32 * major + 27) := by
  unfold initialByte headerLen
  split_ifs <;> omega

lemma toNat_initialByte {major : ℕ} (h : major ≤ 7) (arg : ℕ) :
    (UInt8.ofNat (initialByte major arg)).toNat = initialByte major arg := by
  have := initialByte_bounds major arg
  rw [UInt8.toNat_ofNat']
  exact Nat.mod_eq_of_lt (by omega)

lemma majorType_header {major : ℕ} (h : major ≤ 7) (arg : ℕ) (rest : List UInt8) :
    majorType (header major arg ++ rest) = some major := by
  have hb := initialByte_bounds major arg
  rw [header_eq, majorType, List.cons_append, List.head?_cons, Option.map_some,
    toNat_initialByte h]
  exact congrArg some (by omega)

lemma fixedArgument_append {width arg : ℕ} (h : arg < 256 ^ width) (rest : List UInt8) :
    fixedArgument width (beBytes width arg ++ rest) = some (arg, 1 + width) := by
  have htake : (beBytes width arg ++ rest).take width = beBytes width arg :=
    List.take_left' (length_beBytes width arg)
  rw [fixedArgument, if_pos (by simp), htake, beValue_beBytes h]

lemma fixedArgument_eq_some {width arg len : ℕ} {tail : List UInt8}
    (h : fixedArgument width tail = some (arg, len)) :
    len = 1 + width ∧ arg < 256 ^ width ∧ tail.take width = beBytes width arg := by
  unfold fixedArgument at h
  split_ifs at h with hw
  obtain ⟨harg, hlen⟩ := Prod.mk.inj (Option.some.inj h)
  have htake : (tail.take width).length = width := List.length_take_of_le hw
  have hlt := beValue_lt (tail.take width)
  have hback := beBytes_beValue (tail.take width)
  rw [htake, harg] at hlt hback
  exact ⟨hlen.symm, hlt, hback.symm⟩

lemma argument_cons_eq_some {b : UInt8} {tail : List UInt8} {arg len : ℕ}
    (h : argument (b :: tail) = some (arg, len)) :
    (b.toNat % 32 < 24 ∧ arg = b.toNat % 32 ∧ len = 1) ∨
    (b.toNat % 32 = 24 ∧ fixedArgument 1 tail = some (arg, len)) ∨
    (b.toNat % 32 = 25 ∧ fixedArgument 2 tail = some (arg, len)) ∨
    (b.toNat % 32 = 26 ∧ fixedArgument 4 tail = some (arg, len)) ∨
    (b.toNat % 32 = 27 ∧ fixedArgument 8 tail = some (arg, len)) := by
  simp only [argument] at h
  split_ifs at h with h1 h2 h3 h4 h5
  · obtain ⟨harg, hlen⟩ := Prod.mk.inj (Option.some.inj h)
    exact inl ⟨h1, harg.symm, hlen.symm⟩
  · exact inr (inl ⟨h2, h⟩)
  · exact inr (inr (inl ⟨h3, h⟩))
  · exact inr (inr (inr (inl ⟨h4, h⟩)))
  · exact inr (inr (inr (inr ⟨h5, h⟩)))

lemma argument_header {major arg : ℕ} (h : major ≤ 7) (harg : arg < 2 ^ 64)
    (rest : List UInt8) :
    argument (header major arg ++ rest) = some (arg, headerLen arg) := by
  have hbyte := toNat_initialByte h arg
  have hread (width : ℕ) (hlen : headerLen arg = 1 + width) (hlt : arg < 256 ^ width) :
      fixedArgument width (argumentBytes arg ++ rest) = some (arg, headerLen arg) := by
    rw [argumentBytes, hlen, Nat.add_sub_cancel_left, fixedArgument_append hlt]
  rw [header_eq, List.cons_append]
  simp only [argument, hbyte]
  obtain ⟨h1, hlen, hi⟩ | ⟨h1, h2, hlen, hi⟩ | ⟨h1, h2, hlen, hi⟩ | ⟨h1, h2, hlen, hi⟩ |
    ⟨h1, hlen, hi⟩ := header_cases major arg
  · have hadd : initialByte major arg % 32 = arg := by omega
    rw [hadd, if_pos h1, hlen]
  all_goals
    rw [hi, Nat.mul_add_mod]
  · exact hread 1 hlen h2
  · exact hread 2 hlen h2
  · exact hread 4 hlen h2
  · exact hread 8 hlen harg

lemma eq_header_of_argument {input : List UInt8} {arg : ℕ}
    (h : argument input = some (arg, headerLen arg)) :
    ∃ major rest, majorType input = some major ∧ major ≤ 7 ∧ arg < 2 ^ 64 ∧
      input = header major arg ++ rest := by
  cases input with
  | nil => simp [argument] at h
  | cons b tail =>
    have hb : b.toNat < 256 := b.toNat_lt
    -- The header is determined by its initial byte and its argument bytes.
    have hclose (hlt : arg < 2 ^ 64) (hinit : initialByte (b.toNat / 32) arg = b.toNat)
        (htake : tail.take (headerLen arg - 1) = argumentBytes arg) :
        ∃ major rest, majorType (b :: tail) = some major ∧ major ≤ 7 ∧ arg < 2 ^ 64 ∧
          b :: tail = header major arg ++ rest := by
      refine ⟨b.toNat / 32, tail.drop (headerLen arg - 1), rfl, by omega, hlt, ?_⟩
      rw [header_eq, hinit, UInt8.ofNat_toNat, ← htake, List.cons_append,
        List.take_append_drop]
    have hcases := header_cases (b.toNat / 32) arg
    obtain ⟨h1, harg, hlen⟩ | hfixed | hfixed | hfixed | hfixed := argument_cons_eq_some h
    · refine hclose (by omega) (by omega) ?_
      rw [argumentBytes, hlen]
      rfl
    all_goals
      obtain ⟨hadd, hread⟩ := hfixed
      obtain ⟨hlen, hlt, htake⟩ := fixedArgument_eq_some hread
      refine hclose (by omega) (by omega) ?_
      rw [argumentBytes, hlen]
      exact htake

/-! ## Types and major types -/

def DataType.IsInteger : DataType → Prop
  | u8 | u16 | u32 | u64 | i8 | i16 | i32 | i64 | int => True
  | _ => False

lemma majorType_of_isInteger {input : List UInt8} {t : DataType}
    (h : datatype input = some t) (ht : t.IsInteger) :
    majorType input = some 0 ∨ majorType input = some 1 := by
  have hlength {definite indefinite : DataType} {additional : ℕ} {b : UInt8}
      (hd : ¬ definite.IsInteger) (hi : ¬ indefinite.IsInteger) :
      ¬ (lengthType definite indefinite additional b).IsInteger := by
    unfold lengthType
    split_ifs
    · exact hd
    · exact hi
    · exact id
  have hsimple {additional : ℕ} {b : UInt8} : ¬ (simpleType additional b).IsInteger := by
    unfold simpleType
    split_ifs <;> exact id
  cases input with
  | nil => simp [datatype] at h
  | cons b rest =>
    simp only [majorType, List.head?_cons, Option.map_some, Option.some.injEq]
    simp only [datatype, announcedType] at h
    split at h
    · exact inl ‹_›
    · exact inr ‹_›
    · exact absurd (Option.some.inj h ▸ ht) (hlength id id)
    · exact absurd (Option.some.inj h ▸ ht) (hlength id id)
    · exact absurd (Option.some.inj h ▸ ht) (hlength id id)
    · exact absurd (Option.some.inj h ▸ ht) (hlength id id)
    · obtain rfl := Option.some.inj h
      split_ifs at ht <;> exact ht.elim
    · exact absurd (Option.some.inj h ▸ ht) hsimple

section HeaderTypes

variable {major arg : ℕ}

lemma initialByte_mod (major arg : ℕ) :
    initialByte major arg % 32 ≤ 27 ∧ (initialByte major arg % 32 ≤ 23 ∨ 24 ≤ arg) := by
  have := header_cases major arg
  omega

lemma initialByte_div (major arg : ℕ) : initialByte major arg / 32 = major := by
  have := initialByte_bounds major arg
  omega

lemma datatype_header (h : major ≤ 7) (rest : List UInt8) :
    datatype (header major arg ++ rest) =
      announcedType major (initialByte major arg % 32) (UInt8.ofNat (initialByte major arg))
        (argumentBytes arg ++ rest) := by
  rw [header_eq, List.cons_append, datatype, toNat_initialByte h, initialByte_div]

lemma lengthType_header (definite indefinite : DataType) (b : UInt8) :
    lengthType definite indefinite (initialByte major arg % 32) b = definite :=
  if_pos (initialByte_mod major arg).1

variable (rest : List UInt8)

lemma datatype_bytes : datatype (header 2 arg ++ rest) = some .bytes := by
  rw [datatype_header (by decide), announcedType, lengthType_header]

lemma datatype_string : datatype (header 3 arg ++ rest) = some .string := by
  rw [datatype_header (by decide), announcedType, lengthType_header]

lemma datatype_array : datatype (header 4 arg ++ rest) = some .array := by
  rw [datatype_header (by decide), announcedType, lengthType_header]

lemma datatype_map : datatype (header 5 arg ++ rest) = some .map := by
  rw [datatype_header (by decide), announcedType, lengthType_header]

lemma datatype_uint : ∃ t, datatype (header 0 arg ++ rest) = some t ∧ t.IsInteger := by
  have hadd := (initialByte_mod 0 arg).1
  refine ⟨_, datatype_header (by decide) rest, ?_⟩
  unfold unsignedType
  split_ifs
  · exact trivial
  · exact trivial
  · exact trivial
  · exact trivial
  · omega

/-- A negative header is reported as an integer: when its argument is wider than
the initial byte there is an argument byte to read the sign from. -/
theorem datatype_nint : ∃ t, datatype (header 1 arg ++ rest) = some t ∧ t.IsInteger := by
  have hadd := initialByte_mod 1 arg
  have hsigned (hwide : 24 ≤ arg) (narrow wide : DataType) (hn : narrow.IsInteger)
      (hw : wide.IsInteger) :
      ∃ t, signedType (argumentBytes arg ++ rest) narrow wide = some t ∧ t.IsInteger := by
    have hlen : (argumentBytes arg).length = headerLen arg - 1 := length_beBytes _ _
    have hcases := header_cases 1 arg
    cases hbytes : argumentBytes arg with
    | nil =>
      rw [hbytes, List.length_nil] at hlen
      omega
    | cons b bs =>
      refine ⟨_, rfl, ?_⟩
      dsimp only
      split_ifs
      · exact hn
      · exact hw
  rw [datatype_header (by decide) rest, announcedType]
  unfold negativeType
  split_ifs with h23
  · exact ⟨_, rfl, trivial⟩
  · exact hsigned (hadd.2.resolve_left h23) _ _ trivial trivial
  · exact hsigned (hadd.2.resolve_left h23) _ _ trivial trivial
  · exact hsigned (hadd.2.resolve_left h23) _ _ trivial trivial
  · exact hsigned (hadd.2.resolve_left h23) _ _ trivial trivial
  · omega

end HeaderTypes

/-! ## The readers on deterministic encodings -/

section Readers

variable {major arg : ℕ}

lemma typedArgument_header (h : major ≤ 7) (harg : arg < 2 ^ 64) (rest : List UInt8) :
    typedArgument major (header major arg ++ rest) = some (arg, headerLen arg) := by
  rw [typedArgument, majorType_header h, if_pos rfl, argument_header h harg]

lemma typedArgument_eq_some {input : List UInt8} {value len : ℕ}
    (h : typedArgument major input = some (value, len)) :
    majorType input = some major ∧ argument input = some (value, len) := by
  unfold typedArgument at h
  split_ifs at h with hm
  exact ⟨hm, h⟩

lemma readPayload_append (h : major ≤ 7) (payload rest : List UInt8)
    (hlen : payload.length < 2 ^ 64) :
    readPayload major (header major payload.length ++ payload ++ rest) =
      some (payload, headerLen payload.length + payload.length) := by
  have hdrop : ((header major payload.length ++ (payload ++ rest)).drop
      (headerLen payload.length)).take payload.length = payload := by
    rw [List.drop_left' (length_header major payload.length), List.take_left]
  rw [List.append_assoc, readPayload, typedArgument_header h hlen, Option.bind_some]
  simp only [hdrop, List.length_append, length_header]
  rw [if_pos (by omega)]

lemma readPayload_eq_some {input payload : List UInt8} {len : ℕ}
    (h : readPayload major input = some (payload, len)) :
    ∃ value headerLen, typedArgument major input = some (value, headerLen) ∧
      payload = (input.drop headerLen).take value ∧ len = headerLen + value ∧
      headerLen + value ≤ input.length := by
  obtain ⟨⟨value, headerLen⟩, hread, h⟩ := Option.bind_eq_some_iff.mp h
  dsimp only at h
  split_ifs at h with hle
  obtain ⟨hpayload, hlen⟩ := Prod.mk.inj (Option.some.inj h)
  exact ⟨value, headerLen, hread, hpayload.symm, hlen.symm, hle⟩

end Readers

end Radiata.Lib.Cbor
