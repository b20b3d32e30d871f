import Radiata.Reconcile.FingerprintIndex

/-!
# Indexes that are valid by construction

A `LiveIndex` is a fingerprint index packed with its validity, so the layers above
never meet one whose redundant parts disagree.  Everything the engine asks of it is
read off two views: the ascending entry list `iter`, and the finite set `digests` of
held digests, over which an aggregate is an ordinary finite sum.
-/

namespace Radiata.Reconcile

open Lib

def Fingerprint.ofSet (digests : Finset UInt64) : Fingerprint :=
  ∑ digest ∈ digests, Fingerprint.singleton digest

structure LiveIndex (V : Type) where
  index : FingerprintIndex V
  valid : index.Valid

namespace LiveIndex

variable {V : Type}

def new : LiveIndex V := ⟨.new, FingerprintIndex.new_valid⟩

section

variable (ix : LiveIndex V) (digest : UInt64)

def get : Option V := ix.index.get digest

def insert (value : V) : Option V × LiveIndex V :=
  ((ix.index.insert digest value).1,
    ⟨(ix.index.insert digest value).2, FingerprintIndex.insert_valid ix.valid digest value⟩)

def remove : Option V × LiveIndex V :=
  ((ix.index.remove digest).1,
    ⟨(ix.index.remove digest).2, FingerprintIndex.remove_valid ix.valid digest⟩)

def root : Fingerprint := ix.index.root

def prefixBelow (bound : UInt64) : Fingerprint := ix.index.prefixBelow bound

def range (start stop : UInt64) : Fingerprint := ix.index.range start stop

def rangeEntries (start stop : UInt64) : List (UInt64 × V) :=
  ix.index.rangeEntries start stop

def iter : List (UInt64 × V) := ix.index.iter

/-! ## The two views -/

def digests : Finset UInt64 := (ix.iter.map Prod.fst).toFinset

def digestsIn (start stop : UInt64) : Finset UInt64 :=
  ix.digests.filter fun digest => start ≤ digest ∧ digest ≤ stop

def entriesIn (start stop : UInt64) : List (UInt64 × V) :=
  ix.iter.filter fun e => decide (start ≤ e.1 ∧ e.1 ≤ stop)

lemma iter_ascending : Ascending ix.iter := ix.valid.iter_ascending

end

variable {ix : LiveIndex V} {digest : UInt64}

lemma mem_digests : digest ∈ ix.digests ↔ ∃ value, (digest, value) ∈ ix.iter := by
  simp [digests]

variable {stop : UInt64}

lemma mem_digestsIn {start : UInt64} :
    digest ∈ ix.digestsIn start stop ↔ digest ∈ ix.digests ∧ start ≤ digest ∧ digest ≤ stop := by
  simp [digestsIn]

variable {e : UInt64 × V}

lemma mem_entriesIn {start : UInt64} :
    e ∈ ix.entriesIn start stop ↔ e ∈ ix.iter ∧ start ≤ e.1 ∧ e.1 ≤ stop := by
  simp [entriesIn]

lemma get_eq_some_iff {value : V} :
    ix.get digest = some value ↔ (digest, value) ∈ ix.iter := ix.valid.get_eq_some_iff

lemma get_eq_none_iff : ix.get digest = none ↔ digest ∉ ix.digests := by
  rw [mem_digests, Option.eq_none_iff_forall_ne_some]
  simp only [ne_eq, get_eq_some_iff, not_exists]

@[simp] lemma iter_new : (new : LiveIndex V).iter = [] := by
  simp [iter, new, FingerprintIndex.iter, FingerprintIndex.new, Bucket.new]

lemma insert_fst (ix : LiveIndex V) (digest : UInt64) (value : V) :
    (ix.insert digest value).1 = ix.get digest := (ix.valid.insert_spec digest value).1

lemma mem_iter_insert {value : V} :
    e ∈ (ix.insert digest value).2.iter ↔ e = (digest, value) ∨ e ∈ ix.iter ∧ e.1 ≠ digest :=
  (ix.valid.insert_spec digest value).2 e

lemma remove_fst (ix : LiveIndex V) (digest : UInt64) :
    (ix.remove digest).1 = ix.get digest := (ix.valid.remove_spec digest).1

lemma mem_iter_remove : e ∈ (ix.remove digest).2.iter ↔ e ∈ ix.iter ∧ e.1 ≠ digest :=
  (ix.valid.remove_spec digest).2 e

lemma digests_insert (ix : LiveIndex V) (digest : UInt64) (value : V) :
    (ix.insert digest value).2.digests = Insert.insert digest ix.digests := by
  ext d
  simp only [mem_digests, mem_iter_insert, Finset.mem_insert]
  constructor
  · rintro ⟨v, heq | ⟨hmem, -⟩⟩
    · exact Or.inl (Prod.mk.inj heq).1
    · exact Or.inr ⟨v, hmem⟩
  · rintro (rfl | ⟨v, hmem⟩)
    · exact ⟨value, Or.inl rfl⟩
    · rcases eq_or_ne d digest with rfl | hne
      · exact ⟨value, Or.inl rfl⟩
      · exact ⟨v, Or.inr ⟨hmem, hne⟩⟩

/-! ## Aggregates are sums over the digest set -/

lemma ofDigests_eq_ofSet {l : List (UInt64 × V)} (h : Ascending l) :
    Fingerprint.ofDigests (l.map Prod.fst) = .ofSet (l.map Prod.fst).toFinset := by
  have hnodup : (l.map Prod.fst).Nodup := by
    rw [List.nodup_iff_pairwise_ne, List.pairwise_map]
    exact h.imp fun hab => ne_of_lt hab
  rw [Fingerprint.ofDigests, Fingerprint.ofSet, List.sum_toFinset _ hnodup]

section

variable (ix)

lemma root_eq : ix.root = .ofSet ix.digests :=
  ix.valid.root_eq.trans (ofDigests_eq_ofSet ix.iter_ascending)

variable (start : UInt64)

lemma toFinset_entriesIn (stop : UInt64) :
    ((ix.entriesIn start stop).map Prod.fst).toFinset = ix.digestsIn start stop := by
  ext d
  simp [mem_digestsIn, mem_digests, mem_entriesIn]

lemma entriesIn_ascending (stop : UInt64) :
    Ascending (ix.entriesIn start stop) := ix.iter_ascending.filter _

lemma rangeEntries_succ (h : stop < maxWord) :
    ix.rangeEntries start (stop + 1) = ix.entriesIn start stop := by
  rw [rangeEntries, ix.valid.rangeEntries_eq, entriesIn]
  congr 1
  funext e
  exact decide_eq_decide.mpr (and_congr_right fun _ => lt_succ_iff h)

lemma filter_ge_eq :
    (ix.iter.filter fun e => decide (e.1 ≥ start)) = ix.entriesIn start maxWord := by
  rw [entriesIn]
  congr 1
  funext e
  simp [le_maxWord]

lemma range_succ (h : stop < maxWord) :
    ix.range start (stop + 1) = .ofSet (ix.digestsIn start stop) := by
  rw [← toFinset_entriesIn, ← ofDigests_eq_ofSet (ix.entriesIn_ascending start stop),
    ← ix.rangeEntries_succ start h, rangeEntries, ix.valid.rangeEntries_eq, range,
    ix.valid.range_eq]

lemma root_remove_prefixBelow :
    ix.root.remove (ix.prefixBelow start) = .ofSet (ix.digestsIn start maxWord) := by
  have hword : ix.prefixBelow start = .ofSet (ix.digests.filter (· < start)) := by
    rw [prefixBelow, ix.valid.prefixBelow_eq, ofDigests_eq_ofSet (ix.valid.iter_ascending.filter _)]
    congr 1
    ext d
    simp [mem_digests, iter]
  have hsplit : Fingerprint.ofSet ix.digests =
      .ofSet (ix.digestsIn start maxWord) + .ofSet (ix.digests.filter (· < start)) := by
    have hge : ix.digestsIn start maxWord = ix.digests.filter (¬ · < start) := by
      ext d
      simp [mem_digestsIn, le_maxWord]
    rw [hge, add_comm]
    exact (Finset.sum_filter_add_sum_filter_not _ _ _).symm
  rw [root_eq, hword, hsplit, Fingerprint.remove_eq_sub, add_sub_cancel_right]

end

end LiveIndex

end Radiata.Reconcile
