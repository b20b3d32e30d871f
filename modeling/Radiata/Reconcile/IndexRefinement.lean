import Radiata.Reconcile.FingerprintIndex

/-!
# The fingerprint index refines an ordered map

The abstract side is an extensional tree map keyed by digest.  An index
represents a map when it is valid and enumerates the map's own ascending entry
list; `Represents.insert` and `Represents.remove` are the simulation steps, and
`represents_run` carries them along a whole operation sequence.

Every observable of a represented map is a function of that map alone
(`Represents.observes`), so two operation sequences that build the same map leave
indexes nothing can tell apart.
-/

namespace Radiata.Reconcile

open Lib

abbrev DigestMap (V : Type*) := Std.ExtTreeMap UInt64 V

inductive IndexOp (V : Type*) where
  | insert (digest : UInt64) (value : V)
  | remove (digest : UInt64)

namespace IndexOp

variable {V : Type*}

def apply : IndexOp V → FingerprintIndex V → Option V × FingerprintIndex V
  | insert digest value, index => index.insert digest value
  | remove digest, index => index.remove digest

def applyMap : IndexOp V → DigestMap V → Option V × DigestMap V
  | insert digest value, map => (map[digest]?, map.insert digest value)
  | remove digest, map => (map[digest]?, map.erase digest)

end IndexOp

section Runs

variable {V : Type*}

def runIndex : List (IndexOp V) → FingerprintIndex V → List (Option V) × FingerprintIndex V
  | [], index => ([], index)
  | op :: ops, index =>
    let (returned, index) := op.apply index
    let (rest, index) := runIndex ops index
    (returned :: rest, index)

def runMap : List (IndexOp V) → DigestMap V → List (Option V) × DigestMap V
  | [], map => ([], map)
  | op :: ops, map =>
    let (returned, map) := op.applyMap map
    let (rest, map) := runMap ops map
    (returned :: rest, map)

end Runs

/-- The aggregate a set of entries has by definition: how many there are, as a
word, and the exclusive-or of their digests. -/
def aggregateOf {V : Type*} (entries : List (UInt64 × V)) : Fingerprint :=
  ⟨UInt64.ofNat entries.length, (entries.map Prod.fst).foldr (· ^^^ ·) 0⟩

variable {V : Type*}

lemma ofDigests_eq_aggregateOf (entries : List (UInt64 × V)) :
    Fingerprint.ofDigests (entries.map Prod.fst) = aggregateOf entries := by
  rw [Fingerprint.ofDigests_eq, List.length_map]
  rfl

structure Observes {V : Type*} (index : FingerprintIndex V) (map : DigestMap V) : Prop where
  get : ∀ digest, index.get digest = map[digest]?
  contains : ∀ digest, index.contains digest = map.contains digest
  len : index.len = map.size
  isEmpty : index.isEmpty = map.isEmpty
  iter : index.iter = map.toList
  ascending : index.iter.Pairwise fun a b => a.1 < b.1
  rangeEntries : ∀ start stop, index.rangeEntries start stop =
    map.toList.filter fun e => decide (start ≤ e.1 ∧ e.1 < stop)
  root : index.root = aggregateOf map.toList
  prefixBelow : ∀ bound, index.prefixBelow bound =
    aggregateOf (map.toList.filter fun e => decide (e.1 < bound))
  range : ∀ start stop, index.range start stop =
    aggregateOf (map.toList.filter fun e => decide (start ≤ e.1 ∧ e.1 < stop))
  range_of_ge : ∀ start stop, stop ≤ start → index.range start stop = Fingerprint.empty

structure SameAnswers {V : Type*} (left right : FingerprintIndex V) : Prop where
  get : ∀ digest, left.get digest = right.get digest
  contains : ∀ digest, left.contains digest = right.contains digest
  len : left.len = right.len
  isEmpty : left.isEmpty = right.isEmpty
  iter : left.iter = right.iter
  rangeEntries : ∀ start stop, left.rangeEntries start stop = right.rangeEntries start stop
  root : left.root = right.root
  prefixBelow : ∀ bound, left.prefixBelow bound = right.prefixBelow bound
  range : ∀ start stop, left.range start stop = right.range start stop

structure Represents {V : Type*} (index : FingerprintIndex V) (map : DigestMap V) : Prop where
  valid : index.Valid
  iter_eq : index.iter = map.toList

lemma toList_ascending (map : DigestMap V) : Ascending map.toList :=
  map.ordered_keys_toList.imp fun h => compare_lt_iff_lt.mp h

namespace Represents

variable {V : Type*} {index : FingerprintIndex V} {map : DigestMap V}

lemma mem_iter (h : Represents index map) (e : UInt64 × V) :
    e ∈ index.iter ↔ map[e.1]? = some e.2 := by
  rw [h.iter_eq]
  exact Std.ExtTreeMap.mem_toList_iff_getElem?_eq_some

lemma get_eq (h : Represents index map) (digest : UInt64) :
    index.get digest = map[digest]? := by
  ext v
  rw [h.valid.get_eq_some_iff, h.mem_iter]

lemma of_mem (hv : index.Valid)
    (hmem : ∀ e : UInt64 × V, e ∈ index.iter ↔ map[e.1]? = some e.2) :
    Represents index map := by
  refine ⟨hv, hv.iter_ascending.ext (toList_ascending map) fun e => ?_⟩
  rw [hmem]
  exact Std.ExtTreeMap.mem_toList_iff_getElem?_eq_some.symm

lemma new : Represents (FingerprintIndex.new : FingerprintIndex V) ∅ := by
  refine of_mem FingerprintIndex.new_valid fun e => ?_
  simp [FingerprintIndex.iter, FingerprintIndex.new, Bucket.new]

section

variable (h : Represents index map)
include h

lemma insert (digest : UInt64) (value : V) : (index.insert digest value).1 = map[digest]? ∧
      Represents (index.insert digest value).2 (map.insert digest value) := by
  obtain ⟨hreturned, hmem⟩ := h.valid.insert_spec digest value
  refine ⟨hreturned.trans (h.get_eq digest),
    of_mem (FingerprintIndex.insert_valid h.valid digest value) fun e => ?_⟩
  rw [hmem e, h.mem_iter e, Std.ExtTreeMap.getElem?_insert]
  rcases eq_or_ne digest e.1 with heq | hne
  · rw [if_pos (by simp [heq])]
    simp [Prod.ext_iff, heq, eq_comm]
  · rw [if_neg (by simpa using hne)]
    simp [Prod.ext_iff, hne.symm]

lemma remove (digest : UInt64) : (index.remove digest).1 = map[digest]? ∧
      Represents (index.remove digest).2 (map.erase digest) := by
  obtain ⟨hreturned, hmem⟩ := h.valid.remove_spec digest
  refine ⟨hreturned.trans (h.get_eq digest),
    of_mem (FingerprintIndex.remove_valid h.valid digest) fun e => ?_⟩
  rw [hmem e, h.mem_iter e, Std.ExtTreeMap.getElem?_erase]
  rcases eq_or_ne digest e.1 with heq | hne
  · rw [if_pos (by simp [heq])]
    simp [heq]
  · rw [if_neg (by simpa using hne)]
    simp [hne.symm]

lemma apply (op : IndexOp V) : (op.apply index).1 = (op.applyMap map).1 ∧
      Represents (op.apply index).2 (op.applyMap map).2 := by
  cases op with
  | insert digest value => exact h.insert digest value
  | remove digest => exact h.remove digest

lemma observes : Observes index map := by
  have hlen : index.len = map.size := by
    rw [h.valid.len_eq, h.iter_eq, Std.ExtTreeMap.length_toList]
  refine ⟨h.get_eq, fun digest => ?_, hlen, ?_, h.iter_eq, h.valid.iter_ascending,
    fun start stop => ?_, ?_, fun bound => ?_, fun start stop => ?_, fun start stop hle => ?_⟩
  · rw [FingerprintIndex.contains, h.get_eq, Std.ExtTreeMap.contains_eq_isSome_getElem?]
  · rw [FingerprintIndex.isEmpty, hlen, Std.ExtTreeMap.isEmpty_eq_size_beq_zero]
  · rw [h.valid.rangeEntries_eq, h.iter_eq]
  · rw [h.valid.root_eq, h.iter_eq, ofDigests_eq_aggregateOf]
  · rw [h.valid.prefixBelow_eq, h.iter_eq, ofDigests_eq_aggregateOf]
  · rw [h.valid.range_eq, h.iter_eq, ofDigests_eq_aggregateOf]
  · exact if_pos hle

end

end Represents

lemma represents_run (ops : List (IndexOp V)) {index : FingerprintIndex V} {map : DigestMap V}
    (h : Represents index map) : (runIndex ops index).1 = (runMap ops map).1 ∧
      Represents (runIndex ops index).2 (runMap ops map).2 := by
  induction ops generalizing index map with
  | nil => exact ⟨rfl, h⟩
  | cons op ops ih =>
    obtain ⟨hreturned, hstep⟩ := h.apply op
    obtain ⟨hrest, hrun⟩ := ih hstep
    exact ⟨congrArg₂ List.cons hreturned hrest, hrun⟩

lemma Observes.sameAnswers {left right : FingerprintIndex V} {map : DigestMap V}
    (hl : Observes left map) (hr : Observes right map) : SameAnswers left right where
  get digest := (hl.get digest).trans (hr.get digest).symm
  contains digest := (hl.contains digest).trans (hr.contains digest).symm
  len := hl.len.trans hr.len.symm
  isEmpty := hl.isEmpty.trans hr.isEmpty.symm
  iter := hl.iter.trans hr.iter.symm
  rangeEntries start stop := (hl.rangeEntries start stop).trans (hr.rangeEntries start stop).symm
  root := hl.root.trans hr.root.symm
  prefixBelow bound := (hl.prefixBelow bound).trans (hr.prefixBelow bound).symm
  range start stop := (hl.range start stop).trans (hr.range start stop).symm

/-- **The index is observationally the ordered map its mutations build.**  From the
empty index, every mutation returns what the map would return and every query
answers from the map; in particular two sequences that build the same map leave
indexes with the same answers. -/
theorem index_refines_ordered_map {V : Type*} (ops : List (IndexOp V)) :
    (runIndex ops .new).1 = (runMap ops ∅).1 ∧
      Observes (runIndex ops .new).2 (runMap ops ∅).2 ∧
      ∀ others : List (IndexOp V), (runMap others ∅).2 = (runMap ops ∅).2 →
        SameAnswers (runIndex others .new).2 (runIndex ops .new).2 := by
  obtain ⟨hreturned, hrun⟩ := represents_run ops Represents.new
  refine ⟨hreturned, hrun.observes, fun others hothers => ?_⟩
  have hrun' := (represents_run others Represents.new).2.observes
  rw [hothers] at hrun'
  exact hrun'.sameAnswers hrun.observes

/-- The refinement at a concrete sequence: an insertion undone by a removal leaves
an index with the answers of the empty one. -/
theorem index_refines_ordered_map_undo :
    SameAnswers
      (runIndex [IndexOp.insert 7 "row", .remove 7] .new).2
      (runIndex ([] : List (IndexOp String)) .new).2 := by
  refine (index_refines_ordered_map []).2.2 [.insert 7 "row", .remove 7] ?_
  apply Std.ExtTreeMap.ext_getElem?
  intro k
  simp [runMap, IndexOp.applyMap]

end Radiata.Reconcile
