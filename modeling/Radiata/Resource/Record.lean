import Radiata.Identity.Record
import Radiata.Lib.OrdMap
import Radiata.Protocol.Signature
import Radiata.Routing.Selector

/-!
# Resource records

A resource record is a name with labels, stamped by its writer, and the digest of its own
canonical body.  Decoding folds the domains of its tags to lower case and sorts its labels,
and then requires the digest to be that of the body the decoded fields have: a record is
determined by its fields, while the row it was read from need not be its encoding.

Records of one name are ordered by timestamp, writer, removal rank and digest.
-/

namespace Radiata

open Lib Protocol

/-! ## Names and labels -/

def foldTagDomain (value : Text) : Text :=
  (value.takeWhile (· ≠ '/')).map Char.toLower ++ value.dropWhile (· ≠ '/')

lemma toLower_of_isTagChar {c : Char} (h : isTagChar c = true) : c.toLower = c := by
  have hupper : ¬(c.val ≥ 'A'.val ∧ c.val ≤ 'Z'.val) := by
    simp only [isTagChar, Char.isLower, Char.isDigit, Bool.or_eq_true, Bool.and_eq_true,
      decide_eq_true_eq, beq_iff_eq] at h
    rintro ⟨hge, hle⟩
    rcases h with (((h | h) | rfl) | rfl) | rfl
    · exact absurd (UInt32.le_trans h.1 hle) (by decide)
    · exact absurd (UInt32.le_trans hge h.2) (by decide)
    · exact absurd hge (by decide)
    · exact absurd hge (by decide)
    · exact absurd hge (by decide)
  rw [Char.toLower, dif_neg hupper]

lemma foldTagDomain_value (tag : QualifiedTag) : foldTagDomain tag.value = tag.value := by
  have hlower : (tag.value.takeWhile (· ≠ '/')).map Char.toLower =
      tag.value.takeWhile (· ≠ '/') := by
    refine (List.map_congr_left fun c hc => ?_).trans (List.map_id _)
    exact toLower_of_isTagChar (tag.isTagChar_of_mem (List.takeWhile_subset _ hc))
  rw [foldTagDomain, hlower, List.takeWhile_append_dropWhile]

namespace Protocol.CategoryTag

variable {category : Text}

def parseFolded (category : Text) (context : String) (value : Text) :
    Result (CategoryTag category) :=
  parse category context (foldTagDomain value)

lemma parseFolded_value (tag : CategoryTag category) (context : String) :
    parseFolded category context tag.tag.value = .ok tag := by
  rw [parseFolded, foldTagDomain_value, parse_value]

end Protocol.CategoryTag

abbrev ResourceName := CategoryTag categoryResources
abbrev LabelKey := CategoryTag categoryLabels

def ResourceName.parse : Text → Result ResourceName :=
  CategoryTag.parseFolded _ "resource name"

def LabelKey.parse : Text → Result LabelKey := CategoryTag.parseFolded _ "label key"

structure ResourceUri where
  text : Text
  valid : text ≠ [] ∧ utf8Len text ≤ labelValueMaxBytes

instance : DecidableEq ResourceUri := fun a b =>
  decidable_of_iff (a.text = b.text) (by cases a; cases b; simp)

def ResourceUri.parse (value : Text) : Result ResourceUri :=
  if h : value ≠ [] ∧ utf8Len value ≤ labelValueMaxBytes then .ok ⟨value, h⟩
  else .error (.invalidInput "resource uri")

lemma LabelValue.parse_text (v : LabelValue) : LabelValue.parse v.text = .ok v := dif_pos v.valid

lemma ResourceUri.parse_text (u : ResourceUri) : ResourceUri.parse u.text = .ok u := dif_pos u.valid

def labelSetMaxEntries : ℕ := 64

structure LabelSet where
  entries : OrdMap LabelKey LabelValue
  bounded : entries.entries.length ≤ labelSetMaxEntries

namespace LabelSet

lemma ext {a b : LabelSet} (h : a.entries.entries = b.entries.entries) : a = b := by
  obtain ⟨⟨a, _⟩, _⟩ := a
  obtain ⟨⟨b, _⟩, _⟩ := b
  obtain rfl : a = b := h
  rfl

instance : DecidableEq LabelSet := fun a b =>
  decidable_of_iff (a.entries.entries = b.entries.entries) ⟨ext, fun h => h ▸ rfl⟩

def new : LabelSet := ⟨.empty, Nat.zero_le _⟩

lemma length_insert_le {K V : Type} [LinearOrder K] (m : OrdMap K V) (k : K) (v : V) :
    (m.insert k v).entries.length ≤ m.entries.length + 1 := by
  have hdisjoint : (m.entries.filter fun e => e.1 < k).length +
      (m.entries.filter fun e => k < e.1).length ≤ m.entries.length := by
    induction m.entries with
    | nil => simp
    | cons e l ih =>
      simp only [List.filter_cons]
      rcases lt_trichotomy e.1 k with h | h | h
      · simp [h, h.not_gt]
        omega
      · simp [h]
        omega
      · simp [h, h.not_gt]
        omega
  simp only [OrdMap.insert, List.length_append, List.length_cons]
  omega

variable (labels : LabelSet)

def insert (key : LabelKey) (value : LabelValue) : Result LabelSet :=
  if (labels.entries.get? key).isSome then .error (.conflict "label set")
  else if h : labels.entries.entries.length < labelSetMaxEntries then
    .ok ⟨labels.entries.insert key value, (length_insert_le ..).trans h⟩
  else .error (.resourceExhausted "label set")

def ofPairs : LabelSet → List (Text × Text) → Result LabelSet
  | labels, [] => .ok labels
  | labels, (key, value) :: rest => do
      let key ← LabelKey.parse key
      let value ← LabelValue.parse value
      let labels ← labels.insert key value
      ofPairs labels rest

def pairs : List (Text × Text) :=
  labels.entries.entries.map fun e => (e.1.tag.value, e.2.text)

lemma insert_above {labels : LabelSet} {key : LabelKey} {value : LabelValue}
    (habove : ∀ e ∈ labels.entries.entries, e.1 < key)
    (hroom : labels.entries.entries.length < labelSetMaxEntries) :
    ∃ next, labels.insert key value = .ok next ∧
      next.entries.entries = labels.entries.entries ++ [(key, value)] := by
  have hfresh : (labels.entries.get? key).isSome = false := by
    rw [Option.isSome_eq_false_iff, Option.isNone_iff_eq_none]
    cases hget : labels.entries.get? key with
    | none => rfl
    | some w => exact absurd (habove _ (OrdMap.get?_eq_some.mp hget)) (lt_irrefl key)
  refine ⟨⟨labels.entries.insert key value, (length_insert_le ..).trans hroom⟩, ?_, ?_⟩
  · unfold insert
    rw [if_neg (by simp [hfresh]), dif_pos hroom]
  · have hlow : labels.entries.entries.filter (fun e => e.1 < key) = labels.entries.entries :=
      List.filter_eq_self.mpr fun e he => decide_eq_true (habove e he)
    have hhigh : labels.entries.entries.filter (fun e => key < e.1) = [] :=
      List.filter_eq_nil_iff.mpr fun e he => by simpa using (habove e he).le
    show _ ++ _ :: _ = _
    rw [hlow, hhigh]

lemma ofPairs_ascending {l : List (LabelKey × LabelValue)}
    (hasc : Ascending (labels.entries.entries ++ l))
    (hroom : (labels.entries.entries ++ l).length ≤ labelSetMaxEntries) :
    ∃ next, ofPairs labels (l.map fun e => (e.1.tag.value, e.2.text)) = .ok next ∧
      next.entries.entries = labels.entries.entries ++ l := by
  induction l generalizing labels with
  | nil => exact ⟨labels, rfl, (List.append_nil _).symm⟩
  | cons e l ih =>
    obtain ⟨key, value⟩ := e
    have habove : ∀ e ∈ labels.entries.entries, e.1 < key := fun e he =>
      (List.pairwise_append.mp hasc).2.2 e he (key, value) List.mem_cons_self
    have hlt : labels.entries.entries.length < labelSetMaxEntries := by
      simp only [List.length_append, List.length_cons] at hroom
      omega
    obtain ⟨mid, hmid, hentries⟩ := insert_above habove hlt
    have hsame : mid.entries.entries ++ l = labels.entries.entries ++ (key, value) :: l := by
      rw [hentries, List.append_assoc, List.singleton_append]
    obtain ⟨next, hnext, hfinal⟩ := ih mid (hsame ▸ hasc) (hsame ▸ hroom)
    refine ⟨next, ?_, hfinal.trans hsame⟩
    have hkey : LabelKey.parse key.tag.value = .ok key := key.parseFolded_value _
    rw [List.map_cons, ofPairs, hkey, ok_bind, value.parse_text, ok_bind, hmid, ok_bind]
    exact hnext

lemma ofPairs_pairs : ofPairs new labels.pairs = .ok labels := by
  obtain ⟨next, hnext, hentries⟩ :=
    ofPairs_ascending new (l := labels.entries.entries) labels.entries.ascending labels.bounded
  rw [pairs, hnext]
  exact congrArg _ (ext hentries)

end LabelSet

/-! ## Records -/

namespace Resource

open Lib.Cbor Identity Reconcile

def resourceRecordSchema : Text := "radiata.woooo.tech/schemas/v1/resource-record".toList

def recordVersion : UInt16 := 1

def recordLimits : CborLimits := ⟨4, 256, 16 * 1024⟩

structure ResourceFields where
  name : ResourceName
  resourceType : LabelValue
  resourceUri : ResourceUri
  labels : LabelSet
  timestampMillis : Codec.Signed64
  writer : NodeId
  removalRank : UInt64
  removed : Bool
deriving DecidableEq

abbrev FieldsWire :=
  Text × UInt16 × Text × Text × Text × List (Text × Text) × Codec.Signed64 × Text × UInt64 × Bool

abbrev RecordWire :=
  Text × UInt16 × Text × Text × Text × List (Text × Text) × Codec.Signed64 × Text × UInt64 × Bool ×
    List UInt8

def labelsCodec : Codec (List (Text × Text)) := .vec (.array (.cons .chars (.last .chars)))

def bodyCodec : Codec FieldsWire :=
  .array (.cons .chars (.cons .u16 (.cons .chars (.cons .chars (.cons .chars (.cons labelsCodec
    (.cons .i64 (.cons .chars (.cons .u64 (.last .bool))))))))))

def recordCodec : Codec RecordWire :=
  .array (.cons .chars (.cons .u16 (.cons .chars (.cons .chars (.cons .chars (.cons labelsCodec
    (.cons .i64 (.cons .chars (.cons .u64 (.cons .bool (.last .byteVec)))))))))))

namespace ResourceFields

variable (f : ResourceFields)

def encodeBody : Result (List UInt8) :=
  encodeCanonical bodyCodec
    (resourceRecordSchema, recordVersion, f.name.tag.value, f.resourceType.text,
      f.resourceUri.text, f.labels.pairs, f.timestampMillis, f.writer.text, f.removalRank,
      f.removed) recordLimits

def wire (digest : List UInt8) : RecordWire :=
  (resourceRecordSchema, recordVersion, f.name.tag.value, f.resourceType.text, f.resourceUri.text,
    f.labels.pairs, f.timestampMillis, f.writer.text, f.removalRank, f.removed, digest)

def read : RecordWire → Result ResourceFields
  | (_, _, name, resourceType, resourceUri, labels, timestampMillis, writer, removalRank, removed,
      _) => do
      let name ← ResourceName.parse name
      let resourceType ← LabelValue.parse resourceType
      let resourceUri ← ResourceUri.parse resourceUri
      let labels ← LabelSet.ofPairs .new labels
      let writer ← NodeId.parse writer
      pure ⟨name, resourceType, resourceUri, labels, timestampMillis, writer, removalRank, removed⟩

lemma read_wire (digest : List UInt8) : read (f.wire digest) = .ok f := by
  have hname : ResourceName.parse f.name.tag.value = .ok f.name := f.name.parseFolded_value _
  have hwriter : NodeId.parse f.writer.text = .ok f.writer := f.writer.parse_text _
  simp only [wire, read, hname, f.resourceType.parse_text, f.resourceUri.parse_text,
    f.labels.ofPairs_pairs, hwriter, ok_bind]
  rfl

end ResourceFields

def readDigest (bytes : List UInt8) : Result Digest :=
  if h : bytes.length = 32 then .ok ⟨bytes.toArray, h⟩
  else .error (.invalidInput "resource record digest")

lemma readDigest_toList (digest : Digest) : readDigest digest.toList = .ok digest := by
  rw [readDigest, dif_pos digest.length_toList]
  rfl

structure ResourceRecordV1 (sha256 : Hash) extends ResourceFields where
  digest : Digest
  bound : ∃ body, toResourceFields.encodeBody = .ok body ∧ sha256 body = digest

namespace ResourceRecordV1

variable {sha256 : Hash}

variable {a b : ResourceRecordV1 sha256}

lemma ext_fields (h : a.toResourceFields = b.toResourceFields) : a = b := by
  obtain ⟨fields, digest, bound⟩ := a
  obtain ⟨fields', digest', bound'⟩ := b
  obtain rfl : fields = fields' := h
  obtain ⟨body, hbody, rfl⟩ := bound
  obtain ⟨body', hbody', rfl⟩ := bound'
  obtain rfl := Except.ok.inj (hbody.symm.trans hbody')
  rfl

instance : DecidableEq (ResourceRecordV1 sha256) := fun a b =>
  decidable_of_iff (a.toResourceFields = b.toResourceFields)
    ⟨ext_fields, congrArg toResourceFields⟩

def bind (sha256 : Hash) (fields : ResourceFields) (digest : Digest) :
    Result (ResourceRecordV1 sha256) :=
  match h : fields.encodeBody with
  | .error e => .error e
  | .ok body =>
    if hdigest : sha256 body = digest then .ok ⟨fields, digest, body, h, hdigest⟩
    else .error (.invalidInput "resource record digest")

variable (record : ResourceRecordV1 sha256)

def encode : Result (List UInt8) :=
  encodeCanonical recordCodec (record.wire record.digest.toList) recordLimits

def decode (sha256 : Hash) (bytes : List UInt8) : Result (ResourceRecordV1 sha256) := do
  let wire ← decodeCanonicalStrict recordCodec bytes recordLimits "resource record canonical"
  require (wire.1 = resourceRecordSchema ∧ wire.2.1 = recordVersion)
    (.invalidInput "resource record schema")
  let fields ← ResourceFields.read wire
  let digest ← readDigest wire.2.2.2.2.2.2.2.2.2.2
  bind sha256 fields digest

lemma bind_self : bind sha256 record.toResourceFields record.digest = .ok record := by
  obtain ⟨body, hbody, hdigest⟩ := record.bound
  unfold bind
  split
  next e he => rw [hbody] at he; cases he
  next body' hbody' =>
    obtain rfl := Except.ok.inj (hbody.symm.trans hbody')
    rw [dif_pos hdigest]

/-- **A record is read back from its encoding.** -/
theorem decode_encode {record : ResourceRecordV1 sha256} {bytes : List UInt8}
    (h : record.encode = .ok bytes) : decode sha256 bytes = .ok record := by
  rw [decode, decodeCanonicalStrict_of_encode "resource record canonical" h, ok_bind,
    require_bind_eq_ok]
  refine ⟨⟨rfl, rfl⟩, ?_⟩
  rw [ResourceFields.read_wire, ok_bind]
  exact (congrArg (· >>= _) (readDigest_toList record.digest)).trans record.bind_self

/-! ## The tuple order -/

def order {α : Type} [LinearOrder α] (a b : α) : Ordering := cmp a b

def tupleOrder (a b : ResourceRecordV1 sha256) : Ordering :=
  (order a.timestampMillis.1 b.timestampMillis.1).then <|
    (order a.writer.text b.writer.text).then <|
      (order a.removalRank b.removalRank).then (order a.digest.toList b.digest.toList)

def winsOver (a b : ResourceRecordV1 sha256) : Bool := a.tupleOrder b = .gt

def rank (r : ResourceRecordV1 sha256) : ℤ ×ₗ Text ×ₗ UInt64 ×ₗ List UInt8 :=
  toLex (r.timestampMillis.1, toLex (r.writer.text, toLex (r.removalRank, r.digest.toList)))

lemma order_eq_gt {α : Type} [LinearOrder α] {a b : α} : order a b = .gt ↔ b < a :=
  cmp_eq_gt_iff a b

lemma then_order_eq_gt {α β : Type} [LinearOrder α] [LinearOrder β] {a a' : α} {o : Ordering}
    {b b' : β} (h : o = .gt ↔ b' < b) :
    (order a a').then o = .gt ↔ toLex (a', b') < toLex (a, b) := by
  rw [Ordering.then_eq_gt, order_eq_gt, order, cmp_eq_eq_iff, h, Prod.Lex.toLex_lt_toLex, eq_comm]

/-- **A record wins exactly when its tuple is greater.** -/
theorem winsOver_iff : a.winsOver b = true ↔ b.rank < a.rank := by
  rw [winsOver, decide_eq_true_eq]
  exact then_order_eq_gt (then_order_eq_gt (then_order_eq_gt order_eq_gt))

lemma digest_eq_of_rank_eq (h : a.rank = b.rank) : a.digest = b.digest := by
  have hrest := (Prod.mk.inj (toLex.injective h)).2
  have hlast := (Prod.mk.inj (toLex.injective (Prod.mk.inj (toLex.injective hrest)).2)).2
  exact Vector.toList_inj.mp hlast

end ResourceRecordV1

end Resource

end Radiata
