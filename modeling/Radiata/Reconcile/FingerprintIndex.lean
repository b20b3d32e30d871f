import Radiata.Lib.Ascending
import Radiata.Lib.Fenwick
import Radiata.Reconcile.Fingerprint

/-!
# The fingerprint index

A digest-ordered map with maintained range aggregates, laid out as the source
lays it out: `2 ^ bucketBits` buckets by the top bits of the digest, each bucket
a sorted vector with its own aggregate, a Fenwick tree over the bucket
aggregates, and the root aggregate and entry count maintained directly.

The four structures are redundant, and `FingerprintIndex.Valid` is what keeps
them in agreement.  `insert_valid` and `remove_valid` are the two preservation
results; the query lemmas (`root_eq`, `prefixBelow_eq`, `range_eq`,
`rangeEntries_eq`, `get_eq_some_iff`) then read every observable off the one
ascending list `iter`.
-/

namespace Radiata.Reconcile

open Lib
open List (filter_append flatMap_append map_append map_cons mem_append mem_cons)
open Prod (fst)
open Fingerprint (ofDigests_append ofDigests_cons)

abbrev bucketBits : ℕ := 10

abbrev bucketCount : ℕ := 1 <<< bucketBits

/-- One bucket: the digest-sorted entries below one top-bits prefix, with the
bucket's aggregate maintained on every mutation. -/
structure Bucket (V : Type*) where
  fingerprint : Fingerprint
  entries : List (UInt64 × V)

def Bucket.new {V : Type*} : Bucket V := ⟨Fingerprint.empty, []⟩

structure FingerprintIndex (V : Type*) where
  buckets : Vector (Bucket V) bucketCount
  fenwick : Vector Fingerprint (bucketCount + 1)
  root : Fingerprint
  len : ℕ

variable (digest : UInt64)

lemma bucket_bound : (digest >>> (64 - 10)).toNat < bucketCount := by
  have h := digest.toNat_lt
  rw [UInt64.toNat_shiftRight, Nat.shiftRight_eq_div_pow]
  change digest.toNat / 2 ^ 54 < 1024
  omega

def bucketOf : Fin bucketCount :=
  ⟨(digest >>> (64 - 10)).toNat, bucket_bound digest⟩

lemma val_bucketOf : (bucketOf digest : ℕ) = digest.toNat / 2 ^ 54 := by
  change (digest >>> (64 - 10)).toNat = _
  rw [UInt64.toNat_shiftRight, Nat.shiftRight_eq_div_pow]
  rfl

lemma bucketOf_mono {a b : UInt64} (h : a ≤ b) : bucketOf a ≤ bucketOf b := by
  rw [Fin.le_def, val_bucketOf, val_bucketOf]
  exact Nat.div_le_div_right (UInt64.le_iff_toNat_le.mp h)

lemma lt_of_bucketOf_lt {a b : UInt64} (h : bucketOf a < bucketOf b) : a < b :=
  lt_of_not_ge fun hba => absurd (bucketOf_mono hba) (not_le.mpr h)

namespace FingerprintIndex

variable {V : Type*}

def new : FingerprintIndex V where
  buckets := Vector.replicate bucketCount Bucket.new
  fenwick := Vector.replicate (bucketCount + 1) Fingerprint.empty
  root := Fingerprint.empty
  len := 0

variable (self : FingerprintIndex V)

def isEmpty : Bool := self.len == 0

variable (digest : UInt64)

def get : Option V :=
  let bucket := self.buckets[bucketOf digest]
  let position := partitionPoint digest bucket.entries
  match bucket.entries[position]? with
  | some (held, value) => if held = digest then some value else none
  | none => none

def contains : Bool :=
  (self.get digest).isSome

def fenwickUpdate (slot : ℕ) (delta : Fingerprint) : FingerprintIndex V :=
  { self with fenwick := Fenwick.update self.fenwick slot delta }

def fenwickPrefix (count : Fin bucketCount) : Fingerprint :=
  Fenwick.prefixSum self.fenwick count count.isLt.le

/-- Stores `value` under `digest`; a repeated digest replaces the value and
returns the old one, and no aggregate moves. -/
def insert (value : V) : Option V × FingerprintIndex V :=
  let singleton := Fingerprint.singleton digest
  let bucket := self.buckets[bucketOf digest]
  let position := partitionPoint digest bucket.entries
  let fresh : Option V × FingerprintIndex V :=
    let bucket : Bucket V :=
      { entries := bucket.entries.insertIdx position (digest, value)
        fingerprint := bucket.fingerprint.combine singleton }
    let self := { self with buckets := self.buckets.set (bucketOf digest) bucket }
    let self := self.fenwickUpdate (bucketOf digest + 1) singleton
    (none, { self with root := self.root.combine singleton, len := self.len + 1 })
  match bucket.entries[position]? with
  | some (held, previous) =>
    if held = digest then
      let bucket := { bucket with entries := bucket.entries.set position (held, value) }
      (some previous, { self with buckets := self.buckets.set (bucketOf digest) bucket })
    else fresh
  | none => fresh

def remove : Option V × FingerprintIndex V :=
  let singleton := Fingerprint.singleton digest
  let bucket := self.buckets[bucketOf digest]
  let position := partitionPoint digest bucket.entries
  match bucket.entries[position]? with
  | some (held, value) =>
    if held = digest then
      let bucket : Bucket V :=
        { entries := bucket.entries.eraseIdx position
          fingerprint := bucket.fingerprint.remove singleton }
      let self := { self with buckets := self.buckets.set (bucketOf digest) bucket }
      let self := self.fenwickUpdate (bucketOf digest + 1) singleton.inverse
      (some value, { self with root := self.root.remove singleton, len := self.len - 1 })
    else (none, self)
  | none => (none, self)

def prefixBelow (bound : UInt64) : Fingerprint :=
  let aggregate := self.fenwickPrefix (bucketOf bound)
  let bucket := self.buckets[bucketOf bound]
  (bucket.entries.takeWhile fun e => decide (e.1 < bound)).foldl
    (fun aggregate e => aggregate.combine (Fingerprint.singleton e.1)) aggregate

/-- The aggregate of the half-open range `[start, stop)`: the prefix difference,
empty for an empty or inverted range. -/
def range (start stop : UInt64) : Fingerprint :=
  if start ≥ stop then Fingerprint.empty
  else (self.prefixBelow stop).remove (self.prefixBelow start)

def rangeEntries (start stop : UInt64) : List (UInt64 × V) :=
  let span : List (Bucket V) :=
    if start ≥ stop then []
    else (self.buckets.toList.take (bucketOf stop + 1)).drop (bucketOf start)
  (span.flatMap Bucket.entries).filter fun e => decide (e.1 ≥ start ∧ e.1 < stop)

def iter : List (UInt64 × V) :=
  self.buckets.toList.flatMap Bucket.entries

/-! ## Validity -/

def slot (i : ℕ) : List (UInt64 × V) :=
  self.buckets.toList[i]?.toList.flatMap Bucket.entries

def slotSum : ℕ → Fingerprint
  | 0 => 0
  | i + 1 => .ofDigests ((self.slot i).map Prod.fst)

/-- The redundant parts of an index agree: every bucket is sorted and holds the
digests of its own prefix, and each maintained aggregate is the aggregate of the
entries it stands for. -/
structure Valid (ix : FingerprintIndex V) : Prop where
  sorted : ∀ i : Fin bucketCount, Ascending ix.buckets[i].entries
  placed : ∀ i : Fin bucketCount, ∀ e ∈ ix.buckets[i].entries, bucketOf e.1 = i
  aggregate : ∀ i : Fin bucketCount,
    ix.buckets[i].fingerprint = .ofDigests (ix.buckets[i].entries.map Prod.fst)
  tree : Fenwick.IsTree ix.fenwick ix.slotSum
  root_eq : ix.root = .ofDigests (ix.iter.map Prod.fst)
  len_eq : ix.len = ix.iter.length

variable (self : FingerprintIndex V) (i : Fin bucketCount)

lemma slot_eq : self.slot i = self.buckets[i].entries := by
  simp [slot]

lemma toList_split : self.buckets.toList =
      self.buckets.toList.take i ++ self.buckets[i] :: self.buckets.toList.drop (i + 1) := by
  have hi : (i : ℕ) < self.buckets.toList.length := by simp
  calc self.buckets.toList
      = self.buckets.toList.take i ++ self.buckets.toList.drop i :=
        (List.take_append_drop _ _).symm
    _ = _ := by rw [List.drop_eq_getElem_cons hi]; simp

def before (self : FingerprintIndex V) (i : ℕ) : List (UInt64 × V) :=
  (self.buckets.toList.take i).flatMap Bucket.entries

def onward (self : FingerprintIndex V) (i : ℕ) : List (UInt64 × V) :=
  (self.buckets.toList.drop i).flatMap Bucket.entries

lemma iter_split :
    self.iter = self.before i ++ (self.buckets[i].entries ++ self.onward (i + 1)) := by
  rw [iter, self.toList_split i]
  simp only [flatMap_append, List.flatMap_cons]
  rfl

lemma before_succ (i : ℕ) : self.before (i + 1) = self.before i ++ self.slot i := by
  rw [before, List.take_add_one, flatMap_append]
  rfl

namespace Valid

variable {self : FingerprintIndex V}

variable {e : UInt64 × V}

section

variable (hv : self.Valid)
include hv

lemma bucketOf_of_getElem {b : Bucket V} {i : ℕ} (hb : self.buckets.toList[i]? = some b)
    (he : e ∈ b.entries) : (bucketOf e.1 : ℕ) = i := by
  obtain ⟨hi, rfl⟩ := List.getElem?_eq_some_iff.mp hb
  have hi' : i < bucketCount := by simpa using hi
  have hplaced := hv.placed ⟨i, hi'⟩ e (by simpa using he)
  rw [hplaced]

lemma bucketOf_lt_of_mem_before {i : ℕ} (he : e ∈ self.before i) : (bucketOf e.1 : ℕ) < i := by
  obtain ⟨b, hb, heb⟩ := List.mem_flatMap.mp he
  obtain ⟨j, hj⟩ := List.mem_iff_getElem?.mp hb
  rw [List.getElem?_take] at hj
  split at hj
  · rw [hv.bucketOf_of_getElem hj heb]
    assumption
  · simp at hj

lemma le_bucketOf_of_mem_onward {i : ℕ} (he : e ∈ self.onward i) : i ≤ (bucketOf e.1 : ℕ) := by
  obtain ⟨b, hb, heb⟩ := List.mem_flatMap.mp he
  obtain ⟨j, hj⟩ := List.mem_iff_getElem?.mp hb
  rw [List.getElem?_drop] at hj
  rw [hv.bucketOf_of_getElem hj heb]
  omega

lemma lt_of_mem_before {digest : UInt64} (he : e ∈ self.before (bucketOf digest)) : e.1 < digest :=
  lt_of_bucketOf_lt (hv.bucketOf_lt_of_mem_before he)

lemma gt_of_mem_onward {digest : UInt64} (he : e ∈ self.onward (bucketOf digest + 1)) :
    digest < e.1 :=
  lt_of_bucketOf_lt (hv.le_bucketOf_of_mem_onward he)

end

end Valid

/-! ## Replacing one bucket -/

section SetBucket

variable {ix ix' : FingerprintIndex V} {b : Fin bucketCount} {bucket : Bucket V}

lemma iter_of_set (h : ix'.buckets = ix.buckets.set b bucket) :
    ix'.iter = ix.before b ++ (bucket.entries ++ ix.onward (b + 1)) := by
  have hb : (b : ℕ) < ix.buckets.toList.length := by simp
  rw [iter, h, Vector.toList_set, List.set_eq_take_append_cons_drop, if_pos hb]
  simp only [flatMap_append, List.flatMap_cons]
  rfl

lemma slotSum_of_set (h : ix'.buckets = ix.buckets.set b bucket) :
    ix'.slotSum =
      Function.update ix.slotSum (b + 1) (.ofDigests (bucket.entries.map fst)) := by
  funext j
  cases j with
  | zero => rfl
  | succ j =>
    by_cases hj : j = b
    · subst hj
      simp [slotSum, slot, h]
    · rw [Function.update_of_ne (by omega)]
      simp [slotSum, slot, h, Ne.symm hj]

/-- The validity of an index with one bucket replaced is the validity of the new
bucket and of the three maintained aggregates. -/
theorem Valid.of_set (hv : ix.Valid) (h : ix'.buckets = ix.buckets.set b bucket)
    (hsorted : Ascending bucket.entries) (hplaced : ∀ e ∈ bucket.entries, bucketOf e.1 = b)
    (haggregate : bucket.fingerprint = .ofDigests (bucket.entries.map fst))
    (htree : Fenwick.IsTree ix'.fenwick
      (Function.update ix.slotSum (b + 1) (.ofDigests (bucket.entries.map fst))))
    (hroot : ix'.root = .ofDigests (ix'.iter.map fst))
    (hlen : ix'.len = ix'.iter.length) : ix'.Valid := by
  have hget (i : Fin bucketCount) : ix'.buckets[i] = if b = i then bucket else ix.buckets[i] := by
    rw [h]
    simp [Vector.getElem_set, Fin.ext_iff]
  refine ⟨?_, ?_, ?_, slotSum_of_set h ▸ htree, hroot, hlen⟩
  all_goals
    intro i
    rw [hget]
    rcases eq_or_ne b i with rfl | hi
  · rwa [if_pos rfl]
  · rw [if_neg hi]
    exact hv.sorted i
  · rwa [if_pos rfl]
  · rw [if_neg hi]
    exact hv.placed i
  · rwa [if_pos rfl]
  · rw [if_neg hi]
    exact hv.aggregate i

end SetBucket

lemma slotSum_succ (b : Fin bucketCount) :
    self.slotSum (b + 1) = .ofDigests (self.buckets[b].entries.map fst) := by
  rw [slotSum, slot_eq]

lemma new_valid : (new : FingerprintIndex V).Valid := by
  have hbucket (i : Fin bucketCount) : (new : FingerprintIndex V).buckets[i] = Bucket.new := by
    simp [new]
  have hiter : (new : FingerprintIndex V).iter = [] := by
    simp [iter, new, Bucket.new]
  have hsum : (new : FingerprintIndex V).slotSum = fun _ => 0 := by
    funext j
    cases j with
    | zero => rfl
    | succ j =>
      simp only [slotSum, slot, new, Vector.toList_replicate, List.getElem?_replicate]
      split <;> simp [Bucket.new]
  refine ⟨fun i => ?_, fun i => ?_, fun i => ?_, ?_, ?_, ?_⟩
  · rw [hbucket]
    exact Ascending.nil
  · simp [hbucket, Bucket.new]
  · rw [hbucket]
    rfl
  · rw [hsum]
    exact Fenwick.isTree_replicate_zero
  · rw [hiter]
    rfl
  · rw [hiter]
    rfl

/-! ## The mutations -/

def home (self : FingerprintIndex V) (digest : UInt64) : Bucket V :=
  self.buckets[bucketOf digest]

def probe (self : FingerprintIndex V) (digest : UInt64) : Option (UInt64 × V) :=
  (self.home digest).entries[partitionPoint digest (self.home digest).entries]?

/-- `digest` is not stored, and the smaller and larger digests of its bucket are
`below` and `above`. -/
structure Absent (ix : FingerprintIndex V) (digest : UInt64)
    (below above : List (UInt64 × V)) : Prop where
  below_lt : ∀ e ∈ below, e.1 < digest
  lt_above : ∀ e ∈ above, digest < e.1
  point : partitionPoint digest (ix.home digest).entries = below.length
  entries : (ix.home digest).entries = below ++ above

structure Present (ix : FingerprintIndex V) (digest : UInt64) (v : V)
    (below above : List (UInt64 × V)) : Prop where
  below_lt : ∀ e ∈ below, e.1 < digest
  lt_above : ∀ e ∈ above, digest < e.1
  point : partitionPoint digest (ix.home digest).entries = below.length
  entries : (ix.home digest).entries = below ++ (digest, v) :: above

variable {self : FingerprintIndex V}

lemma Valid.locate (hv : self.Valid) (digest : UInt64) :
    ∃ below above, self.Absent digest below above ∨ ∃ v, self.Present digest v below above := by
  obtain ⟨below, above, hb, ha, hp, hl | ⟨v, hl⟩⟩ := (hv.sorted (bucketOf digest)).cut digest
  · exact ⟨below, above, Or.inl ⟨hb, ha, hp, hl⟩⟩
  · exact ⟨below, above, Or.inr ⟨v, hb, ha, hp, hl⟩⟩

variable {below above : List (UInt64 × V)} {digest : UInt64}

lemma Absent.probe_ne {digest : UInt64} (h : self.Absent digest below above) (e : UInt64 × V)
    (he : self.probe digest = some e) : e.1 ≠ digest := by
  rw [probe, h.point, h.entries, List.getElem?_append_right le_rfl, Nat.sub_self] at he
  exact (h.lt_above e (List.mem_of_getElem? he)).ne'

lemma Present.probe_eq {digest : UInt64} {v : V} (h : self.Present digest v below above) :
    self.probe digest = some (digest, v) := by
  rw [probe, h.point, h.entries]
  simp

def placeFresh (self : FingerprintIndex V) (digest : UInt64) (value : V) :
    FingerprintIndex V where
  buckets := self.buckets.set (bucketOf digest)
    { entries := (self.home digest).entries.insertIdx
        (partitionPoint digest (self.home digest).entries) (digest, value)
      fingerprint := (self.home digest).fingerprint.combine (.singleton digest) }
  fenwick := Fenwick.update self.fenwick (bucketOf digest + 1) (.singleton digest)
  root := self.root.combine (.singleton digest)
  len := self.len + 1

section Absent

variable {self : FingerprintIndex V} {below above : List (UInt64 × V)}

section

variable (h : self.Absent digest below above)
include h

lemma Absent.get_eq : self.get digest = none := by
  change (match self.probe digest with
    | some (held, value) => if held = digest then some value else none
    | none => none) = none
  cases hp : self.probe digest with
  | none => rfl
  | some e => exact if_neg (h.probe_ne e hp)

lemma Absent.remove_eq : self.remove digest = (none, self) := by
  change (match self.probe digest with
    | some (held, value) => if held = digest then _ else (none, self)
    | none => (none, self)) = _
  cases hp : self.probe digest with
  | none => rfl
  | some e => exact if_neg (h.probe_ne e hp)

lemma Absent.insert_eq (value : V) :
    self.insert digest value = (none, self.placeFresh digest value) := by
  change (match self.probe digest with
    | some (held, previous) => if held = digest then _ else (none, self.placeFresh digest value)
    | none => (none, self.placeFresh digest value)) = _
  cases hp : self.probe digest with
  | none => rfl
  | some e => exact if_neg (h.probe_ne e hp)

lemma Absent.iter_placeFresh (value : V) :
    (self.placeFresh digest value).iter = self.before (bucketOf digest) ++
      (below ++ (digest, value) :: above ++ self.onward (bucketOf digest + 1)) := by
  rw [iter_of_set rfl, h.point, h.entries, insertIdx_length_append]

lemma Absent.iter_eq : self.iter = self.before (bucketOf digest) ++
      (below ++ above ++ self.onward (bucketOf digest + 1)) := by
  rw [self.iter_split (bucketOf digest), ← h.entries]
  rfl

end

lemma Absent.valid_placeFresh (hv : self.Valid) (h : self.Absent digest below above)
    (value : V) : (self.placeFresh digest value).Valid := by
  have hsorted : Ascending (below ++ above) := h.entries ▸ hv.sorted (bucketOf digest)
  have hplaced : ∀ e ∈ below ++ above, bucketOf e.1 = bucketOf digest :=
    h.entries ▸ hv.placed (bucketOf digest)
  have haggregate : (self.home digest).fingerprint = .ofDigests ((below ++ above).map fst) :=
    h.entries ▸ hv.aggregate (bucketOf digest)
  have hslot : self.slotSum (bucketOf digest + 1) = .ofDigests ((below ++ above).map fst) := by
    rw [slotSum_succ, ← h.entries]
    rfl
  have hentries : (self.home digest).entries.insertIdx
      (partitionPoint digest (self.home digest).entries) (digest, value) =
        below ++ (digest, value) :: above := by
    rw [h.point, h.entries, insertIdx_length_append]
  have hsum : (.ofDigests ((below ++ (digest, value) :: above).map fst) : Fingerprint) =
      .ofDigests ((below ++ above).map fst) + .singleton digest := by
    simp only [map_append, map_cons, ofDigests_append,
      ofDigests_cons]
    abel
  refine hv.of_set (b := bucketOf digest) rfl ?_ ?_ ?_ ?_ ?_ ?_
  · rw [hentries]
    exact hsorted.append_cons h.below_lt h.lt_above
  · rw [hentries]
    intro e he
    rcases List.mem_append.mp he with he | he
    · exact hplaced e (List.mem_append_left _ he)
    · rcases List.mem_cons.mp he with rfl | he
      · rfl
      · exact hplaced e (List.mem_append_right _ he)
  · rw [hentries, hsum, haggregate]
    rfl
  · rw [hentries, hsum, ← hslot]
    exact hv.tree.update (Nat.succ_pos _) _
  · rw [h.iter_placeFresh value]
    change self.root + .singleton digest = _
    rw [hv.root_eq, h.iter_eq]
    simp only [map_append, map_cons, ofDigests_append,
      ofDigests_cons]
    abel
  · rw [h.iter_placeFresh value]
    change self.len + 1 = _
    rw [hv.len_eq, h.iter_eq]
    simp only [List.length_append, List.length_cons]
    omega

end Absent

def replaceValue (self : FingerprintIndex V) (digest : UInt64) (value : V) :
    FingerprintIndex V :=
  { self with
    buckets := self.buckets.set (bucketOf digest)
      { self.home digest with
        entries := (self.home digest).entries.set
          (partitionPoint digest (self.home digest).entries) (digest, value) } }

def dropStored (self : FingerprintIndex V) (digest : UInt64) : FingerprintIndex V where
  buckets := self.buckets.set (bucketOf digest)
    { entries := (self.home digest).entries.eraseIdx
        (partitionPoint digest (self.home digest).entries)
      fingerprint := (self.home digest).fingerprint.remove (.singleton digest) }
  fenwick := Fenwick.update self.fenwick (bucketOf digest + 1)
    (Fingerprint.singleton digest).inverse
  root := self.root.remove (.singleton digest)
  len := self.len - 1

section Present

variable {self : FingerprintIndex V} {v : V}
variable {below above : List (UInt64 × V)}

section

variable (h : self.Present digest v below above)
include h

lemma Present.get_eq : self.get digest = some v := by
  change (match self.probe digest with
    | some (held, value) => if held = digest then some value else none
    | none => none) = some v
  rw [h.probe_eq]
  exact if_pos rfl

lemma Present.insert_eq (value : V) :
    self.insert digest value = (some v, self.replaceValue digest value) := by
  change (match self.probe digest with
    | some (held, previous) =>
      if held = digest then
        (some previous, { self with
          buckets := self.buckets.set (bucketOf digest)
            { self.home digest with
              entries := (self.home digest).entries.set
                (partitionPoint digest (self.home digest).entries) (held, value) } })
      else _
    | none => _) = _
  rw [h.probe_eq]
  exact if_pos rfl

lemma Present.remove_eq : self.remove digest = (some v, self.dropStored digest) := by
  change (match self.probe digest with
    | some (held, value) =>
      if held = digest then (some value, self.dropStored digest) else (none, self)
    | none => (none, self)) = _
  rw [h.probe_eq]
  exact if_pos rfl

lemma Present.iter_eq : self.iter = self.before (bucketOf digest) ++
      (below ++ (digest, v) :: above ++ self.onward (bucketOf digest + 1)) := by
  rw [self.iter_split (bucketOf digest), ← h.entries]
  rfl

lemma Present.iter_replaceValue (value : V) :
    (self.replaceValue digest value).iter = self.before (bucketOf digest) ++
      (below ++ (digest, value) :: above ++ self.onward (bucketOf digest + 1)) := by
  rw [iter_of_set rfl, h.point, h.entries]
  simp

lemma Present.iter_dropStored : (self.dropStored digest).iter = self.before (bucketOf digest) ++
      (below ++ above ++ self.onward (bucketOf digest + 1)) := by
  rw [iter_of_set rfl, h.point, h.entries, eraseIdx_length_append]

end

/-- Replacing a value keeps the index valid: the digests are unchanged, so no
aggregate moves. -/
theorem Present.valid_replaceValue (hv : self.Valid) (h : self.Present digest v below above)
    (value : V) : (self.replaceValue digest value).Valid := by
  have hsorted : Ascending (below ++ (digest, v) :: above) :=
    h.entries ▸ hv.sorted (bucketOf digest)
  have hentries : (self.home digest).entries.set
      (partitionPoint digest (self.home digest).entries) (digest, value) =
        below ++ (digest, value) :: above := by
    rw [h.point, h.entries]
    simp
  have hkeys : (below ++ (digest, value) :: above).map fst =
      (self.home digest).entries.map fst := by
    rw [h.entries]
    simp
  have hiter : (self.replaceValue digest value).iter.map fst = self.iter.map fst := by
    rw [h.iter_replaceValue value, h.iter_eq]
    simp
  refine hv.of_set (b := bucketOf digest) rfl ?_ ?_ ?_ ?_ ?_ ?_
  · rw [hentries]
    exact hsorted.of_append_cons.append_cons h.below_lt h.lt_above
  · rw [hentries]
    intro e he
    have hfst : e.1 ∈ (self.home digest).entries.map fst :=
      hkeys ▸ List.mem_map_of_mem he
    obtain ⟨e', he', heq⟩ := List.mem_map.mp hfst
    rw [← heq]
    exact hv.placed _ e' he'
  · rw [hentries, hkeys]
    exact hv.aggregate _
  · rw [hentries, hkeys, home, ← slotSum_succ, Function.update_eq_self]
    exact hv.tree
  · rw [hiter]
    exact hv.root_eq
  · rw [← List.length_map fst, hiter, List.length_map]
    exact hv.len_eq

lemma Present.valid_dropStored (hv : self.Valid) (h : self.Present digest v below above) :
    (self.dropStored digest).Valid := by
  have hsorted : Ascending (below ++ (digest, v) :: above) :=
    h.entries ▸ hv.sorted (bucketOf digest)
  have hplaced : ∀ e ∈ below ++ (digest, v) :: above, bucketOf e.1 = bucketOf digest :=
    h.entries ▸ hv.placed (bucketOf digest)
  have haggregate : (self.home digest).fingerprint =
      .ofDigests ((below ++ (digest, v) :: above).map fst) :=
    h.entries ▸ hv.aggregate (bucketOf digest)
  have hslot : self.slotSum (bucketOf digest + 1) =
      .ofDigests ((below ++ (digest, v) :: above).map fst) := by
    rw [slotSum_succ, ← h.entries]
    rfl
  have hentries : (self.home digest).entries.eraseIdx
      (partitionPoint digest (self.home digest).entries) = below ++ above := by
    rw [h.point, h.entries, eraseIdx_length_append]
  have hsum : (.ofDigests ((below ++ above).map fst) : Fingerprint) =
      .ofDigests ((below ++ (digest, v) :: above).map fst) - .singleton digest := by
    simp only [map_append, map_cons, ofDigests_append,
      ofDigests_cons]
    abel
  refine hv.of_set (b := bucketOf digest) rfl ?_ ?_ ?_ ?_ ?_ ?_
  · rw [hentries]
    exact hsorted.of_append_cons
  · rw [hentries]
    intro e he
    exact hplaced e ((List.Sublist.append_left (List.sublist_cons_self _ _) _).subset he)
  · rw [hentries, hsum, haggregate]
    rfl
  · rw [hentries, hsum, ← hslot, sub_eq_add_neg]
    exact hv.tree.update (Nat.succ_pos _) _
  · rw [h.iter_dropStored]
    change self.root - .singleton digest = _
    rw [hv.root_eq, h.iter_eq]
    simp only [map_append, map_cons, ofDigests_append,
      ofDigests_cons]
    abel
  · rw [h.iter_dropStored]
    change self.len - 1 = _
    rw [hv.len_eq, h.iter_eq]
    simp only [List.length_append, List.length_cons]
    omega

end Present

lemma Valid.ne_of_apart (hv : self.Valid) {digest : UInt64} {below above : List (UInt64 × V)}
    (hbelow : ∀ e ∈ below, e.1 < digest) (habove : ∀ e ∈ above, digest < e.1) (e : UInt64 × V)
    (he : e ∈ self.before (bucketOf digest) ∨ e ∈ below ∨ e ∈ above ∨
      e ∈ self.onward (bucketOf digest + 1)) : e.1 ≠ digest := by
  rcases he with he | he | he | he
  exacts [(hv.lt_of_mem_before he).ne, (hbelow e he).ne, (habove e he).ne',
    (hv.gt_of_mem_onward he).ne']

/-- What one insertion does to a valid index: the digest's entry is put between the
smaller and the larger ones, whatever stood there before is returned. -/
theorem Valid.insert_spec (hv : self.Valid) (digest : UInt64) (value : V) :
    (self.insert digest value).1 = self.get digest ∧
      ∀ e, e ∈ (self.insert digest value).2.iter ↔
        e = (digest, value) ∨ e ∈ self.iter ∧ e.1 ≠ digest := by
  obtain ⟨below, above, h | ⟨v, h⟩⟩ := hv.locate digest
  · refine ⟨by rw [h.insert_eq, h.get_eq], fun e => ?_⟩
    have hne := hv.ne_of_apart h.below_lt h.lt_above e
    rw [h.insert_eq, h.iter_placeFresh, h.iter_eq]
    grind
  · refine ⟨by rw [h.insert_eq, h.get_eq], fun e => ?_⟩
    have hne := hv.ne_of_apart h.below_lt h.lt_above e
    rw [h.insert_eq, h.iter_replaceValue, h.iter_eq]
    grind

lemma Valid.remove_spec (hv : self.Valid) (digest : UInt64) :
    (self.remove digest).1 = self.get digest ∧
      ∀ e, e ∈ (self.remove digest).2.iter ↔ e ∈ self.iter ∧ e.1 ≠ digest := by
  obtain ⟨below, above, h | ⟨v, h⟩⟩ := hv.locate digest
  · refine ⟨by rw [h.remove_eq, h.get_eq], fun e => ?_⟩
    have hne := hv.ne_of_apart h.below_lt h.lt_above e
    rw [h.remove_eq, h.iter_eq]
    grind
  · refine ⟨by rw [h.remove_eq, h.get_eq], fun e => ?_⟩
    have hne := hv.ne_of_apart h.below_lt h.lt_above e
    rw [h.remove_eq, h.iter_dropStored, h.iter_eq]
    grind

section Preservation

variable {self : FingerprintIndex V}

/-- **Insertion keeps the index valid.** -/
theorem insert_valid (hv : self.Valid) (digest : UInt64) (value : V) :
    (self.insert digest value).2.Valid := by
  obtain ⟨below, above, h | ⟨v, h⟩⟩ := hv.locate digest
  · rw [h.insert_eq]
    exact h.valid_placeFresh hv value
  · rw [h.insert_eq]
    exact h.valid_replaceValue hv value

/-- **Removal keeps the index valid.** -/
theorem remove_valid (hv : self.Valid) (digest : UInt64) : (self.remove digest).2.Valid := by
  obtain ⟨below, above, h | ⟨v, h⟩⟩ := hv.locate digest
  · rw [h.remove_eq]
    exact hv
  · rw [h.remove_eq]
    exact h.valid_dropStored hv

end Preservation

/-! ## The queries -/

namespace Valid

variable {self : FingerprintIndex V}

section

variable (hv : self.Valid)
include hv

lemma before_ascending : ∀ i ≤ bucketCount, Ascending (self.before i)
  | 0, _ => by simpa [before] using Ascending.nil
  | i + 1, hi => by
      have hslot : self.slot i = self.buckets[i].entries := self.slot_eq ⟨i, hi⟩
      rw [before_succ, hslot]
      refine List.pairwise_append.mpr
        ⟨before_ascending i (by omega), hv.sorted ⟨i, hi⟩, ?_⟩
      intro a ha b hb
      apply lt_of_bucketOf_lt
      rw [hv.placed ⟨i, hi⟩ b hb]
      exact hv.bucketOf_lt_of_mem_before ha

/-- **The enumeration is digest-ascending.** -/
theorem iter_ascending : Ascending self.iter := by
  have hall : self.before self.buckets.toList.length = self.iter := by
    rw [before, iter, List.take_length]
  rw [← hall]
  exact hv.before_ascending _ self.buckets.size_toArray.le

lemma get_eq_some_iff {digest : UInt64} {v : V} :
    self.get digest = some v ↔ (digest, v) ∈ self.iter := by
  obtain ⟨below, above, h | ⟨w, h⟩⟩ := hv.locate digest
  · rw [h.get_eq, h.iter_eq]
    refine iff_of_false (by simp) fun hm => lt_irrefl digest ?_
    rcases List.mem_append.mp hm with hm | hm
    · exact hv.lt_of_mem_before hm
    rcases List.mem_append.mp hm with hm | hm
    · rcases List.mem_append.mp hm with hm | hm
      · exact h.below_lt _ hm
      · exact h.lt_above _ hm
    · exact hv.gt_of_mem_onward hm
  · have hmem : (digest, w) ∈ self.iter := by
      rw [h.iter_eq]
      simp
    rw [h.get_eq, Option.some_inj]
    exact ⟨fun hw => hw ▸ hmem, fun hm => hv.iter_ascending.eq_of_mem_of_mem hmem hm⟩

lemma filter_lt_eq (bound : UInt64) : (self.iter.filter fun e => decide (e.1 < bound)) =
      self.before (bucketOf bound) ++
        self.buckets[bucketOf bound].entries.takeWhile fun e => decide (e.1 < bound) := by
  have hbefore : (self.before (bucketOf bound)).filter (fun e => decide (e.1 < bound)) =
      self.before (bucketOf bound) :=
    List.filter_eq_self.mpr fun e he => decide_eq_true (hv.lt_of_mem_before he)
  have honward : (self.onward (bucketOf bound + 1)).filter (fun e => decide (e.1 < bound)) = [] :=
    List.filter_eq_nil_iff.mpr fun e he hlt =>
      lt_asymm (of_decide_eq_true hlt) (hv.gt_of_mem_onward he)
  rw [self.iter_split (bucketOf bound), filter_append, filter_append, hbefore, honward,
    List.append_nil, (hv.sorted (bucketOf bound)).takeWhile_eq_filter]

lemma fenwickPrefix_eq (count : Fin bucketCount) :
    self.fenwickPrefix count = .ofDigests ((self.before count).map fst) := by
  have hsum (c : ℕ) : ∑ j ∈ Finset.Ioc 0 c, self.slotSum j =
      .ofDigests ((self.before c).map fst) := by
    induction c with
    | zero => simp [before]
    | succ c ih =>
      rw [Finset.sum_Ioc_succ_top (Nat.zero_le c), ih, before_succ, map_append,
        ofDigests_append]
      rfl
  rw [fenwickPrefix, hv.tree.prefixSum, hsum]

/-- **A prefix fingerprint is the aggregate of the digests below the bound.** -/
theorem prefixBelow_eq (bound : UInt64) : self.prefixBelow bound =
      .ofDigests ((self.iter.filter fun e => decide (e.1 < bound)).map fst) := by
  have hfold (l : List (UInt64 × V)) (a : Fingerprint) :
      l.foldl (fun aggregate e => aggregate.combine (.singleton e.1)) a =
        a + .ofDigests (l.map fst) := by
    induction l generalizing a with
    | nil => simp
    | cons e l ih =>
      rw [List.foldl_cons, ih, map_cons, ofDigests_cons, ← add_assoc]
      rfl
  rw [hv.filter_lt_eq bound, map_append, ofDigests_append,
    ← hv.fenwickPrefix_eq, prefixBelow, hfold]

/-- **A range fingerprint is the aggregate of the digests in the range.** -/
theorem range_eq (start stop : UInt64) : self.range start stop = .ofDigests
      ((self.iter.filter fun e => decide (e.1 ≥ start ∧ e.1 < stop)).map fst) := by
  by_cases h : start ≥ stop
  · have hnone : (self.iter.filter fun e => decide (e.1 ≥ start ∧ e.1 < stop)) = [] :=
      List.filter_eq_nil_iff.mpr fun e _ he => by
        obtain ⟨h1, h2⟩ := of_decide_eq_true he
        exact absurd (lt_of_lt_of_le h2 h) (not_lt.mpr h1)
    rw [range, if_pos h, hnone]
    rfl
  · have hsplit (l : List (UInt64 × V)) :
        (.ofDigests ((l.filter fun e => decide (e.1 < stop)).map fst) : Fingerprint) =
          .ofDigests ((l.filter fun e => decide (e.1 ≥ start ∧ e.1 < stop)).map fst) +
            .ofDigests ((l.filter fun e => decide (e.1 < start)).map fst) := by
      induction l with
      | nil => simp
      | cons e l ih =>
        have hlt := lt_of_not_ge h
        rcases lt_or_ge e.1 start with h1 | h1
        · simp [h1, h1.trans hlt, not_le.mpr h1, ih, add_left_comm]
        · rcases lt_or_ge e.1 stop with h2 | h2
          · simp [h1, h2, not_lt.mpr h1, ih, add_assoc]
          · simp [h1, not_lt.mpr h2, not_lt.mpr h1, ih]
    rw [range, if_neg h, hv.prefixBelow_eq, hv.prefixBelow_eq, Fingerprint.remove_eq_sub, hsplit,
      add_sub_cancel_right]

/-- **A range enumeration is the restriction of the whole enumeration.** -/
theorem rangeEntries_eq (start stop : UInt64) : self.rangeEntries start stop =
      self.iter.filter fun e => decide (e.1 ≥ start ∧ e.1 < stop) := by
  by_cases h : start ≥ stop
  · rw [rangeEntries, if_pos h]
    refine (List.filter_eq_nil_iff.mpr fun e _ he => ?_).symm
    obtain ⟨h1, h2⟩ := of_decide_eq_true he
    exact absurd (lt_of_lt_of_le h2 h) (not_lt.mpr h1)
  · have hle : (bucketOf start : ℕ) ≤ bucketOf stop + 1 :=
      Nat.le_succ_of_le (bucketOf_mono (lt_of_not_ge h).le)
    have hiter : self.iter = self.before (bucketOf start) ++
        (((self.buckets.toList.take (bucketOf stop + 1)).drop (bucketOf start)).flatMap
          Bucket.entries ++ self.onward (bucketOf stop + 1)) := by
      have hbuckets : self.buckets.toList = self.buckets.toList.take (bucketOf start) ++
          ((self.buckets.toList.take (bucketOf stop + 1)).drop (bucketOf start) ++
            self.buckets.toList.drop (bucketOf stop + 1)) := by
        have htake := List.take_append_drop (bucketOf start)
          (self.buckets.toList.take (bucketOf stop + 1))
        rw [List.take_take, min_eq_left hle] at htake
        rw [← List.append_assoc, htake, List.take_append_drop]
      rw [iter, before, onward, ← flatMap_append, ← flatMap_append, ← hbuckets]
    have hbefore : (self.before (bucketOf start)).filter
        (fun e => decide (e.1 ≥ start ∧ e.1 < stop)) = [] :=
      List.filter_eq_nil_iff.mpr fun e he hr =>
        not_lt.mpr (of_decide_eq_true hr).1 (hv.lt_of_mem_before he)
    have honward : (self.onward (bucketOf stop + 1)).filter
        (fun e => decide (e.1 ≥ start ∧ e.1 < stop)) = [] :=
      List.filter_eq_nil_iff.mpr fun e he hr =>
        lt_asymm (of_decide_eq_true hr).2 (hv.gt_of_mem_onward he)
    rw [rangeEntries, if_neg h, hiter, filter_append, filter_append, hbefore, honward,
      List.nil_append, List.append_nil]

end

end Valid

end FingerprintIndex

end Radiata.Reconcile
