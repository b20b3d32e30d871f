import Mathlib

/-!
# The order of machine words

`UInt64` and `UInt8` carry their comparisons in core, but not the `LinearOrder` that
the order lemmas of Mathlib ask for.  This module supplies the instances (byte strings
are then ordered lexicographically) and the two facts about neighbouring words that a
half-open reading of an inclusive range needs.
-/

namespace Radiata.Lib

instance linearUInt64 : LinearOrder UInt64 where
  le_refl := UInt64.le_refl
  le_trans _ _ _ := UInt64.le_trans
  lt_iff_le_not_ge a b := by
    simp only [UInt64.lt_iff_toNat_lt, UInt64.le_iff_toNat_le]
    omega
  le_antisymm _ _ := UInt64.le_antisymm
  le_total := UInt64.le_total
  toDecidableLE := inferInstance
  toDecidableEq := inferInstance
  toDecidableLT := inferInstance
  toOrd := inferInstance
  toMin := inferInstance
  toMax := inferInstance

instance linearUInt8 : LinearOrder UInt8 where
  le_refl := UInt8.le_refl
  le_trans _ _ _ := UInt8.le_trans
  lt_iff_le_not_ge a b := by
    simp only [UInt8.lt_iff_toNat_lt, UInt8.le_iff_toNat_le]
    omega
  le_antisymm _ _ := UInt8.le_antisymm
  le_total := UInt8.le_total
  toDecidableLE := inferInstance
  toDecidableEq := inferInstance
  toDecidableLT := inferInstance
  toOrd := inferInstance
  toMin := inferInstance
  toMax := inferInstance

def maxWord : UInt64 := 0xFFFFFFFFFFFFFFFF

@[simp] lemma toNat_maxWord : maxWord.toNat = 2 ^ 64 - 1 := rfl

lemma le_maxWord (a : UInt64) : a ≤ maxWord := by
  have ha := a.toNat_lt
  rw [UInt64.le_iff_toNat_le, toNat_maxWord]
  omega

lemma toNat_succ {a : UInt64} (h : a < maxWord) :
    (a + 1).toNat = a.toNat + 1 := by
  rw [UInt64.lt_iff_toNat_lt, toNat_maxWord] at h
  rw [UInt64.toNat_add, UInt64.toNat_one]
  omega

lemma lt_succ_iff {a b : UInt64} (h : b < maxWord) : a < b + 1 ↔ a ≤ b := by
  rw [UInt64.lt_iff_toNat_lt, UInt64.le_iff_toNat_le, toNat_succ h]
  omega

end Radiata.Lib
