import Radiata.Protocol.Cbor

/-!
# One item head of the validator

`validateHead_iff` is the inversion everything about the validator rests on: a
head that passes is a scalar in its deterministic encoding, or the shortest header
of an array or map within the limits, and nothing else.
-/

namespace Radiata.Protocol

open Lib.Cbor
open Item (encode)

section Slices

variable {bytes : List UInt8} {start stop : ℕ}

lemma slice_eq (h : start ≤ stop) (h' : stop ≤ bytes.length) :
    slice bytes start stop = some ((bytes.drop start).take (stop - start)) := by
  rw [slice, if_pos ⟨h, h'⟩, List.drop_take]

variable {front rest : List UInt8}

lemma slice_of_drop (hpos : start ≤ bytes.length) (h : bytes.drop start = front ++ rest) :
    slice bytes start (start + front.length) = some front := by
  have hlen : bytes.length - start = front.length + rest.length := by
    simpa using congrArg List.length h
  rw [slice_eq (by omega) (by omega), h, Nat.add_sub_cancel_left, List.take_left]

lemma drop_of_drop (h : bytes.drop start = front ++ rest) :
    bytes.drop (start + front.length) = rest := by
  rw [← List.drop_drop, h, List.drop_left]

lemma le_length_of_drop (hpos : start ≤ bytes.length) (h : bytes.drop start = front ++ rest) :
    start + front.length ≤ bytes.length := by
  have hlen : bytes.length - start = front.length + rest.length := by
    simpa using congrArg List.length h
  omega

end Slices

/-! ## Headers -/

variable {start : ℕ} {bytes : List UInt8}

lemma readFixed_eq_ok {length : ℕ} {l : List UInt8} (hpos : start < bytes.length) :
    readFixed length bytes start = .ok l ↔
      length ≤ (bytes.drop (start + 1)).length ∧ l = (bytes.drop (start + 1)).take length := by
  rw [readFixed, orInvalid_eq_ok, slice]
  have hiff : start + 1 ≤ start + 1 + length ∧ start + 1 + length ≤ bytes.length ↔
      length ≤ (bytes.drop (start + 1)).length := by
    rw [List.length_drop]
    omega
  by_cases h : length ≤ (bytes.drop (start + 1)).length
  · rw [if_pos (hiff.mpr h), List.drop_take, Nat.add_sub_cancel_left, Option.some_inj]
    exact ⟨fun heq => ⟨h, heq.symm⟩, fun heq => heq.2.symm⟩
  · rw [if_neg (fun hc => h (hiff.mp hc))]
    exact iff_of_false (by simp) fun hc => h hc.1

lemma readFixed_fixedArgument {length : ℕ} (hpos : start < bytes.length) (value headerLen : ℕ) :
    (do pure (beValue (← readFixed length bytes start), 1 + length) : Result (ℕ × ℕ)) =
        .ok (value, headerLen) ↔
      fixedArgument length (bytes.drop (start + 1)) = some (value, headerLen) := by
  rw [bind_eq_ok, fixedArgument]
  constructor
  · rintro ⟨l, hl, hv⟩
    obtain ⟨hle, rfl⟩ := (readFixed_eq_ok hpos).mp hl
    rw [if_pos hle]
    exact congrArg some (Except.ok.inj hv)
  · intro h
    split_ifs at h with hle
    exact ⟨_, (readFixed_eq_ok hpos).mpr ⟨hle, rfl⟩, congrArg Except.ok (Option.some.inj h)⟩

variable {value len : ℕ}

lemma headerArgument_eq_ok : headerArgument bytes start = .ok (value, len) ↔
      argument (bytes.drop start) = some (value, len) := by
  by_cases hpos : start < bytes.length
  · have hdrop : bytes.drop start = bytes[start] :: bytes.drop (start + 1) :=
      List.drop_eq_getElem_cons hpos
    rw [headerArgument, List.getElem?_eq_getElem hpos, orInvalid_some, ok_bind, hdrop]
    simp only [argument, Nat.lt_succ_iff]
    by_cases h23 : bytes[start].toNat % 32 ≤ 23
    · rw [if_pos h23, if_pos h23]
      simp [pure, Except.pure]
    rw [if_neg h23, if_neg h23]
    split_ifs
    · exact readFixed_fixedArgument hpos value len
    · exact readFixed_fixedArgument hpos value len
    · exact readFixed_fixedArgument hpos value len
    · exact readFixed_fixedArgument hpos value len
    · simp
  · have hdrop : bytes.drop start = [] := List.drop_of_length_le (by omega)
    rw [headerArgument, List.getElem?_eq_none (by omega), hdrop]
    simp [orInvalid, argument, bind, Except.bind]

lemma canonicalArgument_eq_ok : canonicalArgument bytes start = .ok (value, len) ↔
      argument (bytes.drop start) = some (value, len) ∧ len = headerLen value := by
  rw [canonicalArgument, bind_eq_ok, ← headerArgument_eq_ok]
  constructor
  · rintro ⟨⟨value', len'⟩, hread, h⟩
    change (if len' ≠ headerLen value' then _ else _) = _ at h
    split_ifs at h with hlen
    obtain ⟨rfl, rfl⟩ := Prod.mk.inj (Except.ok.inj h)
    exact ⟨hread, not_not.mp hlen⟩
  · rintro ⟨hread, hlen⟩
    refine ⟨_, hread, ?_⟩
    change (if len ≠ headerLen value then _ else _) = _
    rw [if_neg (not_not.mpr hlen)]
    rfl

lemma exists_header_of_canonicalArgument (h : canonicalArgument bytes start = .ok (value, len)) :
    ∃ major rest, majorType (bytes.drop start) = some major ∧ major ≤ 7 ∧ value < 2 ^ 64 ∧
      bytes.drop start = header major value ++ rest := by
  obtain ⟨hread, rfl⟩ := canonicalArgument_eq_ok.mp h
  exact eq_header_of_argument hread

lemma canonicalArgument_of_header {rest : List UInt8} {major : ℕ} (hmajor : major ≤ 7)
    (hvalue : value < 2 ^ 64) (h : bytes.drop start = header major value ++ rest) :
    canonicalArgument bytes start = .ok (value, headerLen value) := by
  rw [canonicalArgument_eq_ok, h]
  exact ⟨argument_header hmajor hvalue rest, rfl⟩

/-! ## One item head -/

/-- What a head can be: a scalar in its deterministic encoding, or the shortest
header of a container the limits admit.  The last index is the consumed length. -/
inductive Head (limits : CborLimits) (depth : ℕ) :
    List UInt8 → Option ContainerFrame → ℕ → Prop where
  | scalar (i : Item) (hi : i.depth = 0) (rest : List UInt8) :
      Head limits depth (i.encode ++ rest) none i.encode.length
  | array (count : ℕ) (hcount : count < 2 ^ 64) (hdepth : depth < limits.maxDepth.toNat)
      (hmax : count ≤ limits.maxCollectionItems.toNat) (rest : List UInt8) :
      Head limits depth (header 4 count ++ rest) (some (.array count)) (headerLen count)
  | map (count : ℕ) (hcount : count < 2 ^ 64) (hdepth : depth < limits.maxDepth.toNat)
      (hmax : count ≤ limits.maxCollectionItems.toNat) (rest : List UInt8) :
      Head limits depth (header 5 count ++ rest) (some (.map count true none none))
        (headerLen count)

section Heads

variable {bytes : List UInt8} {limits : CborLimits} {depth start : ℕ}

lemma validateHead_integer {t : DataType} (h : datatype (bytes.drop start) = some t)
    (ht : t.IsInteger) :
    validateHead bytes limits depth start = (do
      let (_, headerLen) ← canonicalArgument bytes start
      let consumed ← orInvalid (skipInteger (bytes.drop start)) "CBOR integer"
      if consumed ≠ headerLen then throw (.invalidInput "CBOR integer")
      else pure (none, start + consumed)) := by
  rw [validateHead, h, orInvalid_some, ok_bind]
  cases t <;> first | rfl | exact ht.elim

variable {major : ℕ} {rest : List UInt8} {read : List UInt8 → Option (List UInt8 × ℕ)}

lemma validateString_of_header (hmajor : major ≤ 7) {payload : List UInt8} (context : String)
    (hlen : payload.length < 2 ^ 64)
    (h : bytes.drop start = header major payload.length ++ payload ++ rest)
    (hread : read (header major payload.length ++ payload ++ rest) = some (payload, headerLen
      payload.length + payload.length)) : validateString bytes start read context =
      .ok (start + (header major payload.length ++ payload).length) := by
  have harg : canonicalArgument bytes start = .ok (payload.length, headerLen payload.length) :=
    canonicalArgument_of_header hmajor hlen (by rw [h, List.append_assoc])
  rw [validateString, harg, h, hread]
  simp only [ok_bind, orInvalid_some, validateSizedItem, Nat.add_sub_cancel_left, ne_eq,
    not_true_eq_false, if_false, List.length_append, length_header]
  rfl

variable {stop : ℕ} {context : String}

lemma validateString_eq_ok
    (hread : ∀ input payload len, read input = some (payload, len) → readPayload major input = some
      (payload, len)) (h : validateString bytes start read context = .ok stop) :
    ∃ payload rest len, bytes.drop start = header major payload.length ++ payload ++ rest ∧
      read (bytes.drop start) = some (payload, len) ∧
      payload.length < 2 ^ 64 ∧ stop = start + (header major payload.length ++ payload).length := by
  obtain ⟨⟨length, len⟩, harg, h⟩ := bind_eq_ok.mp h
  obtain ⟨⟨payload, consumed⟩, hr, h⟩ := bind_eq_ok.mp h
  rw [orInvalid_eq_ok] at hr
  obtain ⟨_, _, hstop⟩ := bind_eq_ok.mp h
  obtain ⟨value, hlen, htyped, hpayload, hconsumed, hle⟩ :=
    readPayload_eq_some (hread _ _ _ hr)
  obtain ⟨hmajor, hvalue⟩ := typedArgument_eq_some htyped
  obtain ⟨major', rest, hmajor', -, hbound, hdrop⟩ := exists_header_of_canonicalArgument harg
  obtain ⟨harg', rfl⟩ := canonicalArgument_eq_ok.mp harg
  rw [harg'] at hvalue
  obtain ⟨rfl, rfl⟩ := Prod.mk.inj (Option.some.inj hvalue)
  rw [hmajor'] at hmajor
  obtain rfl := Option.some.inj hmajor
  rw [hdrop, List.drop_left' (length_header major' length)] at hpayload
  have hpl : payload.length = length := by
    rw [hdrop, List.length_append, length_header] at hle
    rw [hpayload, List.length_take]
    omega
  refine ⟨payload, rest.drop length, consumed, ?_, hr, hpl ▸ hbound, ?_⟩
  · rw [hdrop, hpl, List.append_assoc, hpayload, List.take_append_drop]
  · rw [List.length_append, length_header, hpl, ← hconsumed]
    exact (Except.ok.inj hstop).symm

lemma validateContainer_of_header {indefinite count : ℕ} (hmajor : major ≤ 7)
    (hcount : count < 2 ^ 64) (hindef : 32 * major + 27 < indefinite)
    (hdepth : depth < limits.maxDepth.toNat) (hmax : count ≤ limits.maxCollectionItems.toNat)
    (h : bytes.drop start = header major count ++ rest) (context indef length : String) :
    validateContainer bytes limits depth start (readContainer major indefinite) context indef
      length = .ok (count, start + headerLen count) := by
  have hb := initialByte_bounds major count
  have hread : readContainer major indefinite (header major count ++ rest) =
      some (some count, headerLen count) := by
    have hne : (header major count ++ rest).head?.map UInt8.toNat ≠ some indefinite := by
      rw [header_eq, List.cons_append, List.head?_cons, Option.map_some, toNat_initialByte hmajor]
      exact fun heq => by have := Option.some.inj heq; omega
    rw [readContainer, if_neg hne, typedArgument_header hmajor hcount]
    rfl
  rw [validateContainer, validateContainerDepth, if_neg (by omega),
    canonicalArgument_of_header hmajor hcount h, h, hread]
  simp only [pure, Except.pure, ok_bind, orInvalid_some, ne_eq, not_true_eq_false, false_or]
  rw [if_neg (by omega)]

lemma validateContainer_eq_ok {indefinite count : ℕ} {indef length : String}
    (h : validateContainer bytes limits depth start (readContainer major indefinite) context indef
      length = .ok (count, stop)) :
    depth < limits.maxDepth.toNat ∧ count ≤ limits.maxCollectionItems.toNat ∧ count < 2 ^ 64 ∧
      stop = start + headerLen count ∧ ∃ rest, bytes.drop start = header major count ++ rest := by
  obtain ⟨_, hdepth, h1⟩ := bind_eq_ok.mp h
  obtain ⟨⟨value, len⟩, harg, h2⟩ := bind_eq_ok.mp h1
  obtain ⟨⟨decoded, consumed⟩, hr, h3⟩ := bind_eq_ok.mp h2
  obtain ⟨decoded', hdecoded, h4⟩ := bind_eq_ok.mp h3
  rw [orInvalid_eq_ok] at hr hdecoded
  subst hdecoded
  have hdepth' : depth < limits.maxDepth.toNat := by
    unfold validateContainerDepth at hdepth
    split_ifs at hdepth with hd
    omega
  split_ifs at h4 with hbad
  obtain ⟨rfl, rfl⟩ := Prod.mk.inj (Except.ok.inj h4)
  obtain ⟨heq, hmax⟩ := not_or.mp hbad
  obtain ⟨major', rest, hmajor', -, hbound, hdrop⟩ := exists_header_of_canonicalArgument harg
  obtain ⟨harg', rfl⟩ := canonicalArgument_eq_ok.mp harg
  unfold readContainer at hr
  split_ifs at hr with hindef
  · simp at hr
  obtain ⟨⟨count', len'⟩, htyped, hpair⟩ := Option.map_eq_some_iff.mp hr
  obtain ⟨hmajor, hvalue⟩ := typedArgument_eq_some htyped
  rw [harg'] at hvalue
  obtain ⟨rfl, rfl⟩ := Prod.mk.inj (Option.some.inj hvalue)
  obtain ⟨-, rfl⟩ := Prod.mk.inj hpair
  rw [hmajor'] at hmajor
  obtain rfl := Option.some.inj hmajor
  exact ⟨hdepth', by omega, hbound, rfl, rest, hdrop⟩

lemma validateHead_scalar {i : Item} (hi : i.depth = 0)
    (hinput : bytes.drop start = i.encode ++ rest) (hsize : (i.encode ++ rest).length < 2 ^ 64) :
    validateHead bytes limits depth start = .ok (none, start + i.encode.length) := by
  have hinteger {major : ℕ} (n : UInt64) (hmajor : major ≤ 7)
      (hdrop : bytes.drop start = header major n.toNat ++ rest) {t : DataType}
      (ht : datatype (header major n.toNat ++ rest) = some t) (hint : t.IsInteger) :
      validateHead bytes limits depth start =
        .ok (none, start + (header major n.toNat).length) := by
    rw [validateHead_integer (hdrop ▸ ht) hint, canonicalArgument_of_header hmajor n.toNat_lt hdrop,
      hdrop, skipInteger, argument_header hmajor n.toNat_lt]
    simp [pure, Except.pure]
  cases i with
  | uint n =>
    obtain ⟨t, ht, hint⟩ : ∃ t, datatype (header 0 n.toNat ++ rest) = some t ∧ t.IsInteger :=
      datatype_uint rest
    exact hinteger n (by decide) hinput ht hint
  | nint n =>
    obtain ⟨t, ht, hint⟩ : ∃ t, datatype (header 1 n.toNat ++ rest) = some t ∧ t.IsInteger :=
      datatype_nint rest
    exact hinteger n (by decide) hinput ht hint
  | bytes payload =>
    have hpayload : payload.length < 2 ^ 64 := by
      simp only [encode, List.length_append] at hsize
      omega
    rw [encode] at hinput ⊢
    have hstring : validateString bytes start readBytes "CBOR bytes" =
        .ok (start + (header 2 payload.length ++ payload).length) :=
      validateString_of_header (by decide) _ hpayload hinput
        (readPayload_append (by decide) payload rest hpayload)
    rw [validateHead, hinput, List.append_assoc, datatype_bytes, orInvalid_some, ok_bind, hstring]
    rfl
  | text s =>
    have hpayload : (utf8 s).length < 2 ^ 64 := by
      simp only [encode, List.length_append] at hsize
      omega
    have hread : readStr (header 3 (utf8 s).length ++ utf8 s ++ rest) =
        some (utf8 s, headerLen (utf8 s).length + (utf8 s).length) := by
      rw [readStr, readPayload_append (by decide) (utf8 s) rest hpayload, Option.bind_some]
      exact if_pos (validUtf8_utf8 s)
    rw [encode] at hinput ⊢
    rw [validateHead, hinput, List.append_assoc, datatype_string, orInvalid_some, ok_bind,
      validateString_of_header (by decide) "CBOR string" hpayload hinput hread]
    rfl
  | array items | map entries => simp [Item.depth] at hi
  | bool b =>
    rw [validateHead, hinput]
    cases b with
    | false => rfl
    | true => rfl
  | null =>
    rw [validateHead, hinput]
    rfl

lemma Head.of_scalar {i : Item} (hi : i.depth = 0) (hdrop : bytes.drop start = i.encode ++ rest)
    (hstop : stop = start + i.encode.length) :
    ∃ len, Head limits depth (bytes.drop start) none len ∧ stop = start + len :=
  ⟨i.encode.length, hdrop ▸ .scalar i hi rest, hstop⟩

variable {container : Option ContainerFrame}

lemma head_of_integer {t : DataType} (ht : datatype (bytes.drop start) = some t)
    (hint : t.IsInteger) (h : validateHead bytes limits depth start = .ok (container, stop)) :
    ∃ len, Head limits depth (bytes.drop start) container len ∧ stop = start + len := by
  rw [validateHead_integer ht hint] at h
  obtain ⟨⟨value, len⟩, harg, h1⟩ := bind_eq_ok.mp h
  obtain ⟨consumed, -, h2⟩ := bind_eq_ok.mp h1
  split_ifs at h2 with hne
  obtain ⟨rfl, rfl⟩ := Prod.mk.inj (Except.ok.inj h2)
  obtain ⟨major, rest, hmajor, -, hbound, hdrop⟩ := exists_header_of_canonicalArgument harg
  obtain ⟨-, rfl⟩ := canonicalArgument_eq_ok.mp harg
  obtain rfl := not_not.mp hne
  have hvalue : (UInt64.ofNat value).toNat = value := UInt64.toNat_ofNat_of_lt' hbound
  rcases majorType_of_isInteger ht hint with h0 | h0
  all_goals
    rw [hmajor] at h0
    obtain rfl := Option.some.inj h0
  · have hencode : bytes.drop start = (Item.uint (UInt64.ofNat value)).encode ++ rest := by
      rw [encode, hvalue, hdrop]
    refine Head.of_scalar rfl hencode ?_
    rw [encode, hvalue, length_header]
  · have hencode : bytes.drop start = (Item.nint (UInt64.ofNat value)).encode ++ rest := by
      rw [encode, hvalue, hdrop]
    refine Head.of_scalar rfl hencode ?_
    rw [encode, hvalue, length_header]

lemma head_of_validateHead (h : validateHead bytes limits depth start = .ok (container, stop)) :
    ∃ len, Head limits depth (bytes.drop start) container len ∧ stop = start + len := by
  obtain ⟨t, ht, h1⟩ := bind_eq_ok.mp h
  rw [orInvalid_eq_ok] at ht
  by_cases hint : t.IsInteger
  · exact head_of_integer ht hint h
  cases t with
  | bytes =>
    obtain ⟨end', hstring, h2⟩ := bind_eq_ok.mp h1
    obtain ⟨rfl, rfl⟩ := Prod.mk.inj (Except.ok.inj h2)
    obtain ⟨payload, rest, -, hdrop, -, -, rfl⟩ :=
      validateString_eq_ok (fun input _ _ (hr : readPayload 2 input = _) => hr) hstring
    exact Head.of_scalar (i := .bytes payload) rfl hdrop rfl
  | string =>
    obtain ⟨end', hstring, h2⟩ := bind_eq_ok.mp h1
    obtain ⟨rfl, rfl⟩ := Prod.mk.inj (Except.ok.inj h2)
    have hread (input payload : List UInt8) (len : ℕ)
        (hr : readStr input = some (payload, len)) :
        readPayload 3 input = some (payload, len) ∧ validUtf8 payload = true := by
      obtain ⟨⟨payload', len'⟩, hp, hr⟩ := Option.bind_eq_some_iff.mp hr
      dsimp only at hr
      split_ifs at hr with hvalid
      obtain ⟨rfl, rfl⟩ := Prod.mk.inj (Option.some.inj hr)
      exact ⟨hp, hvalid⟩
    obtain ⟨payload, rest, len, hdrop, hr, -, rfl⟩ :=
      validateString_eq_ok (fun input payload len hr => (hread input payload len hr).1) hstring
    obtain ⟨s, rfl⟩ := exists_utf8_eq (hread _ _ _ hr).2
    exact Head.of_scalar (i := .text s) rfl hdrop rfl
  | array =>
    obtain ⟨⟨count, end'⟩, hcontainer, h2⟩ := bind_eq_ok.mp h1
    obtain ⟨rfl, rfl⟩ := Prod.mk.inj (Except.ok.inj h2)
    change validateContainer bytes limits depth start (readContainer 4 _) _ _ _ = _
      at hcontainer
    obtain ⟨hdepth, hmax, hcount, rfl, rest, hdrop⟩ := validateContainer_eq_ok hcontainer
    exact ⟨_, hdrop ▸ .array count hcount hdepth hmax rest, rfl⟩
  | map =>
    obtain ⟨⟨count, end'⟩, hcontainer, h2⟩ := bind_eq_ok.mp h1
    obtain ⟨rfl, rfl⟩ := Prod.mk.inj (Except.ok.inj h2)
    change validateContainer bytes limits depth start (readContainer 5 _) _ _ _ = _
      at hcontainer
    obtain ⟨hdepth, hmax, hcount, rfl, rest, hdrop⟩ := validateContainer_eq_ok hcontainer
    exact ⟨_, hdrop ▸ .map count hcount hdepth hmax rest, rfl⟩
  | bool =>
    obtain ⟨⟨b, consumed⟩, hr, h2⟩ := bind_eq_ok.mp h1
    obtain ⟨rfl, rfl⟩ := Prod.mk.inj (Except.ok.inj h2)
    rw [orInvalid_eq_ok] at hr
    cases hinput : bytes.drop start with
    | nil => simp [hinput, readBool] at hr
    | cons initial rest =>
      rw [hinput, readBool] at hr
      split_ifs at hr with hfalse htrue
      all_goals obtain ⟨rfl, rfl⟩ := Prod.mk.inj (Option.some.inj hr)
      · obtain rfl : initial = 0xF4 := UInt8.toNat_inj.mp hfalse
        exact ⟨1, .scalar (.bool false) rfl rest, rfl⟩
      · obtain rfl : initial = 0xF5 := UInt8.toNat_inj.mp htrue
        exact ⟨1, .scalar (.bool true) rfl rest, rfl⟩
  | null =>
    obtain ⟨consumed, hr, h2⟩ := bind_eq_ok.mp h1
    obtain ⟨rfl, rfl⟩ := Prod.mk.inj (Except.ok.inj h2)
    rw [orInvalid_eq_ok] at hr
    cases hinput : bytes.drop start with
    | nil => simp [hinput, readNull] at hr
    | cons initial rest =>
      rw [hinput, readNull] at hr
      split_ifs at hr with hnull
      obtain rfl := Option.some.inj hr
      obtain rfl : initial = 0xF6 := UInt8.toNat_inj.mp hnull
      exact ⟨1, .scalar .null rfl rest, rfl⟩
  | _ => first | exact (hint trivial).elim | cases h1

/-- **What one head can be.** -/
theorem validateHead_iff (hlen : bytes.length < 2 ^ 64) :
    validateHead bytes limits depth start = .ok (container, stop) ↔
      ∃ len, Head limits depth (bytes.drop start) container len ∧ stop = start + len := by
  refine ⟨head_of_validateHead, ?_⟩
  rintro ⟨len, hhead, rfl⟩
  generalize hinput : bytes.drop start = input at hhead
  have hsize : input.length < 2 ^ 64 := by
    have := List.length_drop (i := start) (l := bytes)
    rw [hinput] at this
    omega
  cases hhead with
  | scalar i hi rest => exact validateHead_scalar hi hinput hsize
  | array count hcount hdepth hmax rest =>
    have hcontainer : validateContainer bytes limits depth start readArray "CBOR array"
        "CBOR indefinite array" "CBOR array length" = .ok (count, start + headerLen count) :=
      validateContainer_of_header (by decide) hcount (by decide : 32 * 4 + 27 < 0x9F) hdepth
        hmax hinput _ _ _
    rw [validateHead, hinput, datatype_array, orInvalid_some, ok_bind, hcontainer]
    rfl
  | map count hcount hdepth hmax rest =>
    have hcontainer : validateContainer bytes limits depth start readMap "CBOR map"
        "CBOR indefinite map" "CBOR map length" = .ok (count, start + headerLen count) :=
      validateContainer_of_header (by decide) hcount (by decide : 32 * 5 + 27 < 0xBF) hdepth
        hmax hinput _ _ _
    rw [validateHead, hinput, datatype_map, orInvalid_some, ok_bind, hcontainer]
    rfl

end Heads

end Radiata.Protocol
