import Mathlib

/-!
# Fenwick trees over a commutative monoid

A Fenwick tree keeps, in slot `i` of a 1-indexed array, the aggregate of the
half-open block of slots `(i with its lowest one cleared, i]`.  A point update
ascends by the lowest one of the slot; a prefix query descends by clearing it.

The whole theory rests on one number-theoretic fact, `covers_step`: the ascent
from `p` visits exactly the slots whose block contains `p`.  Everything else is
bookkeeping about sums over `Finset.Ioc`.

The loops carry a fuel argument so that they are structurally recursive and
evaluate; `update` and `prefixSum` supply enough of it.
-/

namespace Radiata.Lib.Fenwick

/-! ## The lowest one of a number -/

def clearLowest (i : ℕ) : ℕ := i &&& (i - 1)

/-- The lowest one of a number as a power of two (zero for zero): the ascent step
of a point update. -/
def lowestOne (i : ℕ) : ℕ := i - clearLowest i

lemma clearLowest_le (i : ℕ) : clearLowest i ≤ i := Nat.and_le_left

lemma clearLowest_zero : clearLowest 0 = 0 := rfl

lemma clearLowest_eq (k q : ℕ) :
    clearLowest (2 ^ k * (2 * q + 1)) = 2 ^ k * (2 * q) := by
  have hpos : 0 < 2 ^ k := Nat.two_pow_pos k
  have hpred : 2 ^ k * (2 * q + 1) - 1 = 2 ^ k * (2 * q) + (2 ^ k - 1) := by
    rw [Nat.mul_add, Nat.mul_one]
    omega
  have hself : 2 ^ k * (2 * q + 1) = 2 ^ k * (2 * q + 1) + 0 := rfl
  rw [clearLowest, hpred, hself]
  apply Nat.eq_of_testBit_eq
  intro j
  rw [Nat.testBit_and, Nat.testBit_two_pow_mul_add _ hpos,
    Nat.testBit_two_pow_mul_add _ (by omega : 2 ^ k - 1 < 2 ^ k),
    Nat.testBit_two_pow_mul]
  by_cases hj : j < k
  · simp [hj]
  · have hjk : k ≤ j := by omega
    rcases Nat.eq_zero_or_pos (j - k) with hz | hp
    · simp [hj, hjk, hz]
    · obtain ⟨m, hm⟩ : ∃ m, j - k = m + 1 := ⟨j - k - 1, by omega⟩
      have hodd : (2 * q + 1) / 2 = q := by omega
      simp [hj, hjk, hm, Nat.testBit_succ, hodd]

variable {i : ℕ}

lemma exists_odd_form (hi : 0 < i) : ∃ k q, i = 2 ^ k * (2 * q + 1) := by
  obtain ⟨k, m, ⟨q, hq⟩, him⟩ := Nat.exists_eq_two_pow_mul_odd (n := i) (by omega)
  exact ⟨k, q, by rw [him, hq]⟩

lemma lowestOne_eq (k q : ℕ) : lowestOne (2 ^ k * (2 * q + 1)) = 2 ^ k := by
  rw [lowestOne, clearLowest_eq, Nat.mul_add, Nat.mul_one, Nat.add_sub_cancel_left]

lemma clearLowest_lt (hi : 0 < i) : clearLowest i < i := by
  obtain ⟨k, q, rfl⟩ := exists_odd_form hi
  rw [clearLowest_eq, Nat.mul_add, Nat.mul_one]
  have := Nat.two_pow_pos k
  omega

lemma lowestOne_pos (hi : 0 < i) : 0 < lowestOne i := by
  have := clearLowest_lt hi
  rw [lowestOne]
  omega

/-! ## Which slots cover a position -/

def Covers (i p : ℕ) : Prop := clearLowest i < p ∧ p ≤ i

instance (i p : ℕ) : Decidable (Covers i p) :=
  inferInstanceAs (Decidable (_ ∧ _))

/-- The ascent from `p` never leaves the block of a slot that covers `p`, and
never enters the block of one that does not: above `p` itself, a slot covers `p`
exactly when it covers the next slot of the ascent. -/
theorem covers_step {p : ℕ} (hp : 0 < p) (hne : i ≠ p) :
    Covers i p ↔ Covers i (p + lowestOne p) := by
  rcases Nat.eq_zero_or_pos i with rfl | hi
  · simp only [Covers, clearLowest_zero]
    omega
  obtain ⟨k, q, rfl⟩ := exists_odd_form hi
  obtain ⟨m, r, rfl⟩ := exists_odd_form hp
  simp only [Covers, clearLowest_eq, lowestOne_eq]
  have hk : 0 < 2 ^ k := Nat.two_pow_pos k
  have hm : 0 < 2 ^ m := Nat.two_pow_pos m
  rcases Nat.lt_or_ge m k with hmk | hkm
  · -- The block of `i` is a union of blocks of twice the ascent's step.
    obtain ⟨c, rfl⟩ : ∃ c, k = m + 1 + c := ⟨k - m - 1, by omega⟩
    rw [pow_add, pow_add, pow_one]
    generalize 2 ^ m = t at *
    have hc : 0 < 2 ^ c := Nat.two_pow_pos c
    generalize 2 ^ c = s at *
    have h1 : t * 2 * s * (2 * q) = t * (4 * (s * q)) := by ring
    have h2 : t * 2 * s * (2 * q + 1) = t * (4 * (s * q) + 2 * s) := by ring
    have h3 : t * (2 * r + 1) + t = t * (2 * r + 2) := by ring
    rw [h1, h2, h3]
    simp only [Nat.mul_lt_mul_left hm, Nat.mul_le_mul_left_iff hm]
    omega
  · -- The step from `p` is at least the whole block of `i`, so it jumps over it.
    obtain ⟨c, rfl⟩ : ∃ c, m = k + c := ⟨m - k, by omega⟩
    rw [pow_add] at hne ⊢
    generalize 2 ^ k = t at *
    have hc : 0 < 2 ^ c := Nat.two_pow_pos c
    have h1 : t * 2 ^ c * (2 * r + 1) = t * (2 ^ c * (2 * r + 1)) := by ring
    have h2 : t * (2 ^ c * (2 * r + 1)) + t * 2 ^ c = t * (2 ^ c * (2 * r + 2)) := by
      ring
    have hne' : 2 * q + 1 ≠ 2 ^ c * (2 * r + 1) := by
      intro h
      rw [h1, h] at hne
      exact hne rfl
    rw [h1, h2]
    simp only [Nat.mul_lt_mul_left hk, Nat.mul_le_mul_left_iff hk]
    rcases Nat.eq_zero_or_pos c with rfl | hcpos
    · simp only [pow_zero, one_mul] at hne' ⊢
      omega
    · obtain ⟨e, rfl⟩ : ∃ e, c = e + 1 := ⟨c - 1, by omega⟩
      rw [pow_succ]
      generalize 2 ^ e = s at *
      have h3 : s * 2 * (2 * r + 1) = 2 * (s * (2 * r + 1)) := by ring
      have h4 : s * 2 * (2 * r + 2) = 2 * (s * (2 * r + 2)) := by ring
      rw [h3, h4]
      omega

/-! ## The tree -/

variable {G : Type*} {n : ℕ}

def updateLoop [Add G] (delta : G) : ℕ → Vector G (n + 1) → ℕ → Vector G (n + 1)
  | 0, tree, _ => tree
  | fuel + 1, tree, slot =>
    if h : slot < n + 1 then
      updateLoop delta fuel (tree.set slot (tree[slot] + delta)) (slot + lowestOne slot)
    else tree

def update [Add G] (tree : Vector G (n + 1)) (slot : ℕ) (delta : G) : Vector G (n + 1) :=
  updateLoop delta (n + 1) tree slot

def prefixLoop [Add G] (tree : Vector G (n + 1)) : ℕ → (count : ℕ) → count ≤ n → G → G
  | 0, _, _, acc => acc
  | fuel + 1, count, h, acc =>
    if 0 < count then
      prefixLoop tree fuel (clearLowest count) ((clearLowest_le count).trans h)
        (acc + tree[count])
    else acc

def prefixSum [Add G] [Zero G] (tree : Vector G (n + 1)) (count : ℕ) (h : count ≤ n) : G :=
  prefixLoop tree count count h 0

def IsTree [AddCommMonoid G] (tree : Vector G (n + 1)) (a : ℕ → G) : Prop :=
  ∀ i (h : i ≤ n), 0 < i → tree[i] = ∑ j ∈ Finset.Ioc (clearLowest i) i, a j

lemma isTree_replicate_zero [AddCommMonoid G] :
    IsTree (Vector.replicate (n + 1) (0 : G)) (fun _ => 0) := by
  intro i h _
  simp

lemma updateLoop_getElem [AddCommMonoid G] (delta : G) :
    ∀ (fuel : ℕ) (tree : Vector G (n + 1)) (slot : ℕ), 0 < slot → n + 1 ≤ slot + fuel →
      ∀ i (h : i < n + 1),
        (updateLoop delta fuel tree slot)[i] =
          tree[i] + if Covers i slot then delta else 0 := by
  intro fuel
  induction fuel with
  | zero =>
    intro tree slot hpos hfuel i hi
    have hnot : ¬ Covers i slot := fun hc => by have := hc.2; omega
    simp [updateLoop, hnot]
  | succ fuel ih =>
    intro tree slot hpos hfuel i hi
    by_cases hslot : slot < n + 1
    · have hstep := lowestOne_pos hpos
      rw [updateLoop, dif_pos hslot, ih _ _ (by omega) (by omega) i hi,
        Vector.getElem_set]
      by_cases heq : slot = i
      · subst heq
        have hself : Covers slot slot := ⟨clearLowest_lt hpos, le_rfl⟩
        have hnext : ¬ Covers slot (slot + lowestOne slot) := fun hc => by
          have := hc.2
          omega
        simp [hself, hnext]
      · rw [if_neg heq]
        simp only [covers_step hpos (Ne.symm heq)]
    · have hnot : ¬ Covers i slot := fun hc => by have := hc.2; omega
      simp [updateLoop, hslot, hnot]

variable {tree : Vector G (n + 1)} {a : ℕ → G}

lemma IsTree.update [AddCommMonoid G] (ht : IsTree tree a) {slot : ℕ} (hpos : 0 < slot)
    (delta : G) : IsTree (Fenwick.update tree slot delta)
      (Function.update a slot (a slot + delta)) := by
  intro i h hi
  rw [Fenwick.update, updateLoop_getElem delta _ _ _ hpos (by omega) i (by omega),
    ht i h hi]
  by_cases hc : Covers i slot
  · have hmem : slot ∈ Finset.Ioc (clearLowest i) i := Finset.mem_Ioc.mpr hc
    rw [if_pos hc, Finset.sum_update_of_mem hmem, ← Finset.add_sum_erase _ a hmem,
      Finset.sdiff_singleton_eq_erase]
    abel
  · have hmem : slot ∉ Finset.Ioc (clearLowest i) i := fun hm => hc (Finset.mem_Ioc.mp hm)
    rw [if_neg hc, add_zero, Finset.sum_update_of_notMem hmem]

lemma prefixLoop_eq [AddCommMonoid G] (ht : IsTree tree a) :
    ∀ (fuel count : ℕ) (h : count ≤ n) (acc : G), count ≤ fuel →
      prefixLoop tree fuel count h acc = acc + ∑ j ∈ Finset.Ioc 0 count, a j := by
  intro fuel
  induction fuel with
  | zero =>
    intro count h acc hfuel
    obtain rfl : count = 0 := by omega
    simp [prefixLoop]
  | succ fuel ih =>
    intro count h acc hfuel
    by_cases hpos : 0 < count
    · have hlt := clearLowest_lt hpos
      rw [prefixLoop, if_pos hpos, ih _ _ _ (by omega), ht count h hpos, add_assoc,
        add_comm (∑ j ∈ Finset.Ioc (clearLowest count) count, a j),
        Finset.sum_Ioc_consecutive a (Nat.zero_le _) hlt.le]
    · obtain rfl : count = 0 := by omega
      simp [prefixLoop]

/-- **The prefix query is the prefix sum.** -/
theorem IsTree.prefixSum [AddCommMonoid G] (ht : IsTree tree a) (count : ℕ) (h : count ≤ n) :
    Fenwick.prefixSum tree count h = ∑ j ∈ Finset.Ioc 0 count, a j := by
  rw [Fenwick.prefixSum, prefixLoop_eq ht count count h 0 le_rfl, zero_add]

end Radiata.Lib.Fenwick
