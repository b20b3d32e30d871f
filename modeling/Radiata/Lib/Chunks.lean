import Mathlib

/-!
# Bounded chunks of a list

Cutting a list into consecutive chunks of at most a given size, the way a sender
packs entries into bounded messages.  Nothing is lost or reordered
(`flatten_chunks`), every chunk is non-empty and within the size, and there are
only as many chunks as the entries fill.
-/

namespace Radiata.Lib

variable {α : Type*}

def chunksWithin (size : ℕ) : ℕ → List α → List (List α)
  | 0, _ => []
  | _ + 1, [] => []
  | fuel + 1, a :: l => (a :: l).take size :: chunksWithin size fuel ((a :: l).drop size)

def chunks (size : ℕ) (l : List α) : List (List α) := chunksWithin size l.length l

section

variable {size : ℕ} (hsize : 0 < size)

include hsize

lemma flatten_chunksWithin {fuel : ℕ} {l : List α} (h : l.length ≤ fuel) :
    (chunksWithin size fuel l).flatten = l := by
  induction fuel generalizing l with
  | zero => simpa [chunksWithin] using h
  | succ fuel ih =>
    cases l with
    | nil => rfl
    | cons a l =>
      have hdrop : ((a :: l).drop size).length ≤ fuel := by
        rw [List.length_drop]
        simp only [List.length_cons] at h ⊢
        omega
      rw [chunksWithin, List.flatten_cons, ih hdrop, List.take_append_drop]

lemma flatten_chunks (l : List α) : (chunks size l).flatten = l :=
  flatten_chunksWithin hsize le_rfl

lemma mem_chunksWithin {fuel : ℕ} {l chunk : List α} (h : chunk ∈ chunksWithin size fuel l) :
    chunk ≠ [] ∧ chunk.length ≤ size ∧ chunk ⊆ l := by
  induction fuel generalizing l with
  | zero => simp [chunksWithin] at h
  | succ fuel ih =>
    cases l with
    | nil => simp [chunksWithin] at h
    | cons a l =>
      rcases List.mem_cons.mp h with rfl | h
      · refine ⟨?_, List.length_take_le _ _, List.take_subset _ _⟩
        obtain ⟨n, rfl⟩ := Nat.exists_eq_succ_of_ne_zero hsize.ne'
        simp
      · obtain ⟨hne, hlen, hsub⟩ := ih h
        exact ⟨hne, hlen, List.Subset.trans hsub (List.drop_subset _ _)⟩

lemma mem_chunks {l chunk : List α} (h : chunk ∈ chunks size l) :
    chunk ≠ [] ∧ chunk.length ≤ size ∧ chunk ⊆ l :=
  mem_chunksWithin hsize h

lemma length_chunksWithin_mul_le (fuel : ℕ) (l : List α) :
    size * (chunksWithin size fuel l).length ≤ l.length + (size - 1) := by
  induction fuel generalizing l with
  | zero => simp [chunksWithin]
  | succ fuel ih =>
    cases l with
    | nil => simp [chunksWithin]
    | cons a l =>
      have hrest := ih ((a :: l).drop size)
      rw [chunksWithin, List.length_cons, mul_add, mul_one]
      rcases le_or_gt size (a :: l).length with hle | hlt
      · rw [List.length_drop] at hrest
        omega
      · have hnil : (a :: l).drop size = [] := List.drop_eq_nil_of_le hlt.le
        rw [hnil] at hrest ⊢
        have hzero : (chunksWithin size fuel ([] : List α)).length = 0 := by
          cases fuel <;> rfl
        simp only [hzero, List.length_cons]
        omega

lemma length_chunks_mul_le (l : List α) :
    size * (chunks size l).length ≤ l.length + (size - 1) :=
  length_chunksWithin_mul_le hsize _ l

end

end Radiata.Lib
