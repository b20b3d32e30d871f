import Radiata.Reconcile.Engine

/-!
# Ranges of digests

What the engine computes about inclusive ranges: the local aggregate is the
aggregate of the held digests of the range, the emitted entries are the held
entries of the range, and `split` is a partition into two to four narrower
children.
-/

namespace Radiata.Reconcile

open Lib
open List (countP_cons countP_nil map_cons map_nil mem_cons not_mem_nil sum_cons sum_nil)
open UInt64 (le_iff_toNat_le ofNat toNat_add toNat_mul toNat_ofNat toNat_ofNat')

def inside (digest : UInt64) (bound : UInt64 × UInt64) : Bool :=
  decide (bound.1 ≤ digest ∧ digest ≤ bound.2)

def span (bound : UInt64 × UInt64) : ℕ := bound.2.toNat - bound.1.toNat + 1

structure Partitions (start stop : UInt64) (children : List (UInt64 × UInt64)) : Prop where
  within : ∀ c ∈ children, start ≤ c.1 ∧ c.1 ≤ c.2 ∧ c.2 ≤ stop
  once : ∀ digest, children.countP (inside digest) = if inside digest (start, stop) then 1 else 0
  span_sum : (children.map span).sum = span (start, stop)
  two_le : 2 ≤ children.length
  le_four : children.length ≤ 4

section Split

variable {start stop : UInt64}

lemma partitions_singletons (h : start < stop) (hnarrow : stop.toNat - start.toNat + 1 ≤ 3) :
    Partitions start stop ((List.range (stop.toNat - start.toNat + 1)).map fun i =>
      (start + ofNat i, start + ofNat i)) := by
  have hlt := UInt64.lt_iff_toNat_lt.mp h
  have hstop := stop.toNat_lt
  have htoNat (i : ℕ) (hi : i < 3) (hle : start.toNat + i < 2 ^ 64) :
      (start + ofNat i).toNat = start.toNat + i := by
    rw [toNat_add, toNat_ofNat']
    omega
  have h0 := htoNat 0 (by decide) (by omega)
  have h1 := htoNat 1 (by decide) (by omega)
  obtain hw | hw : stop.toNat - start.toNat + 1 = 2 ∨ stop.toNat - start.toNat + 1 = 3 := by omega
  · rw [hw]
    show Partitions start stop [(start + ofNat 0, start + ofNat 0),
      (start + ofNat 1, start + ofNat 1)]
    refine ⟨?_, fun digest => ?_, ?_, by simp, by simp⟩
    · simp only [mem_cons, not_mem_nil, or_false, forall_eq_or_imp, forall_eq,
        le_iff_toNat_le, h0, h1]
      omega
    · simp only [countP_cons, countP_nil, inside, decide_eq_true_eq,
        le_iff_toNat_le, h0, h1]
      split_ifs <;> omega
    · simp only [map_cons, map_nil, sum_cons, sum_nil, span]
      omega
  · have h2 := htoNat 2 (by decide) (by omega)
    rw [hw]
    show Partitions start stop [(start + ofNat 0, start + ofNat 0),
      (start + ofNat 1, start + ofNat 1),
      (start + ofNat 2, start + ofNat 2)]
    refine ⟨?_, fun digest => ?_, ?_, by simp, by simp⟩
    · simp only [mem_cons, not_mem_nil, or_false, forall_eq_or_imp, forall_eq,
        le_iff_toNat_le, h0, h1, h2]
      omega
    · simp only [countP_cons, countP_nil, inside, decide_eq_true_eq,
        le_iff_toNat_le, h0, h1, h2]
      split_ifs <;> omega
    · simp only [map_cons, map_nil, sum_cons, sum_nil, span]
      omega

lemma partitions_quarters {quarter : UInt64} (hq : 0 < quarter.toNat)
    (hfit : start.toNat + 4 * quarter.toNat ≤ stop.toNat + 1) :
    Partitions start stop
      [(start, start + quarter - 1), (start + quarter, start + 2 * quarter - 1),
        (start + 2 * quarter, start + 3 * quarter - 1), (start + 3 * quarter, stop)] := by
  have hstop := stop.toNat_lt
  have h1 : (start + quarter).toNat = start.toNat + quarter.toNat := by
    rw [toNat_add]
    omega
  have h2 : (start + 2 * quarter).toNat = start.toNat + 2 * quarter.toNat := by
    rw [toNat_add, toNat_mul]
    simp only [toNat_ofNat]
    omega
  have h3 : (start + 3 * quarter).toNat = start.toNat + 3 * quarter.toNat := by
    rw [toNat_add, toNat_mul]
    simp only [toNat_ofNat]
    omega
  have hpred (a : UInt64) (ha : 0 < a.toNat) : (a - 1).toNat = a.toNat - 1 := by
    have hone : (1 : UInt64) ≤ a := UInt64.le_iff_toNat_le.mpr ha
    rw [UInt64.toNat_sub_of_le _ _ hone]
    rfl
  have e1 := hpred (start + quarter) (by omega)
  have e2 := hpred (start + 2 * quarter) (by omega)
  have e3 := hpred (start + 3 * quarter) (by omega)
  refine ⟨?_, fun digest => ?_, ?_, by simp, by simp⟩
  · simp only [mem_cons, not_mem_nil, or_false, forall_eq_or_imp, forall_eq,
      le_iff_toNat_le, e1, e2, e3, h1, h2, h3]
    omega
  · simp only [countP_cons, countP_nil, inside, decide_eq_true_eq,
      le_iff_toNat_le, e1, e2, e3, h1, h2, h3]
    split_ifs <;> omega
  · simp only [map_cons, map_nil, sum_cons, sum_nil, span, e1, e2, e3, h1, h2,
      h3]
    omega

/-- **The children of a split partition the range.** -/
theorem split_partitions (h : start < stop) : Partitions start stop (split start stop) := by
  have hlt := UInt64.lt_iff_toNat_lt.mp h
  have hstop := stop.toNat_lt
  have hq : (ofNat ((stop.toNat - start.toNat + 1) / fanout)).toNat =
      (stop.toNat - start.toNat + 1) / 4 := by
    rw [toNat_ofNat', fanout]
    omega
  rw [split]
  split_ifs with hzero
  · rw [hzero] at hq
    simp only [UInt64.toNat_zero] at hq
    exact partitions_singletons h (by omega)
  · have hpos : 0 < (ofNat ((stop.toNat - start.toNat + 1) / fanout)).toNat := by
      rw [Nat.pos_iff_ne_zero]
      intro hcontra
      exact hzero (UInt64.toNat_inj.mp hcontra)
    exact partitions_quarters hpos (by omega)

end Split

namespace Engine

variable (e : Engine)

lemma rangeFingerprint_eq (start stop : UInt64) :
    e.rangeFingerprint start stop = .ofSet (e.index.digestsIn start stop) := by
  rw [rangeFingerprint]
  split_ifs with h
  · exact e.index.range_succ start h
  · obtain rfl : stop = maxWord := le_antisymm (le_maxWord stop) (not_lt.mp h)
    exact e.index.root_remove_prefixBelow start

lemma entries_eq (start stop : UInt64) : e.entries start stop = e.index.entriesIn start stop := by
  rw [entries]
  split_ifs with h
  · exact e.index.rangeEntries_succ start h
  · obtain rfl : stop = maxWord := le_antisymm (le_maxWord stop) (not_lt.mp h)
    exact e.index.filter_ge_eq start

lemma rangeFingerprint_whole : e.rangeFingerprint 0 maxWord = e.index.root := by
  have hall : e.index.digestsIn 0 maxWord = e.index.digests := by
    ext digest
    rw [LiveIndex.mem_digestsIn]
    exact and_iff_left ⟨UInt64.zero_le, le_maxWord digest⟩
  rw [rangeFingerprint_eq, hall, LiveIndex.root_eq]

end Engine

end Radiata.Reconcile
