import Mathlib

/-!
# The least few of a stream

A list in order of a rank takes a new element behind those it ties with.  A list that is cut to
its first few after every element holds the first few of the list that is never cut.
-/

namespace Radiata.Lib

variable {α κ : Type*} [LinearOrder κ]

def insertRanked (rank : α → κ) (l : List α) (a : α) : List α :=
  l.filter (fun b => rank b ≤ rank a) ++ a :: l.filter fun b => rank a < rank b

def ranked (rank : α → κ) (l : List α) : List α := l.foldl (insertRanked rank) []

variable {rank : α → κ} {l : List α} {a b : α}

section

variable (rank) (l : List α)

lemma ranked_concat (a : α) : ranked rank (l ++ [a]) = insertRanked rank (ranked rank l) a := by
  rw [ranked, List.foldl_append]
  rfl

lemma insertRanked_perm (a : α) : (insertRanked rank l a).Perm (a :: l) := by
  have hbeyond : (fun b => decide (rank a < rank b)) = fun b => !decide (rank b ≤ rank a) := by
    funext b
    rw [← decide_not, decide_eq_decide, not_le]
  rw [insertRanked, hbeyond]
  exact List.perm_middle.trans (.cons a (List.filter_append_perm _ l))

lemma ranked_perm : (ranked rank l).Perm l := by
  induction l using List.reverseRecOn with
  | nil => exact .nil
  | append_singleton l a ih =>
    rw [ranked_concat]
    exact (insertRanked_perm rank _ a).trans
      ((ih.cons a).trans (List.perm_append_singleton a l).symm)

lemma ranked_ordered : (ranked rank l).Pairwise fun b c => rank b ≤ rank c := by
  induction l using List.reverseRecOn with
  | nil => exact .nil
  | append_singleton l a ih =>
    rw [ranked_concat, insertRanked, List.pairwise_append]
    refine ⟨ih.filter _, List.pairwise_cons.mpr ⟨fun c hc => ?_, ih.filter _⟩, fun b hb c hc => ?_⟩
    · exact (of_decide_eq_true (List.mem_filter.mp hc).2).le
    · have hle : rank b ≤ rank a := of_decide_eq_true (List.mem_filter.mp hb).2
      rcases List.mem_cons.mp hc with rfl | hc
      · exact hle
      · exact hle.trans (of_decide_eq_true (List.mem_filter.mp hc).2).le

end

lemma insertRanked_cons_of_le (h : rank b ≤ rank a) :
    insertRanked rank (b :: l) a = b :: insertRanked rank l a := by
  simp [insertRanked, h]

lemma insertRanked_of_forall_lt (h : ∀ c ∈ l, rank a < rank c) :
    insertRanked rank l a = a :: l := by
  rw [insertRanked, List.filter_eq_nil_iff.mpr fun c hc => by simpa using h c hc,
    List.filter_eq_self.mpr fun c hc => by simpa using h c hc, List.nil_append]

lemma take_insertRanked_take (h : l.Pairwise fun b c => rank b ≤ rank c) (cap : ℕ) (a : α) :
    (insertRanked rank (l.take cap) a).take cap = (insertRanked rank l a).take cap := by
  induction l generalizing cap with
  | nil => rw [List.take_nil]
  | cons b l ih =>
    obtain ⟨hleast, hrest⟩ := List.pairwise_cons.mp h
    cases cap with
    | zero => rfl
    | succ cap =>
      rw [List.take_succ_cons]
      by_cases hle : rank b ≤ rank a
      · rw [insertRanked_cons_of_le hle, insertRanked_cons_of_le hle, List.take_succ_cons,
          List.take_succ_cons, ih hrest]
      · -- the element goes to the front of both
        have hbeyond : ∀ c ∈ b :: l, rank a < rank c :=
          List.forall_mem_cons.mpr
            ⟨not_le.mp hle, fun c hc => (not_le.mp hle).trans_le (hleast c hc)⟩
        have hfront : ∀ c ∈ (b :: l).take (cap + 1), rank a < rank c := fun c hc =>
          hbeyond c (List.mem_of_mem_take hc)
        rw [← List.take_succ_cons, insertRanked_of_forall_lt hbeyond,
          insertRanked_of_forall_lt hfront, List.take_succ_cons (a := a),
          List.take_succ_cons (a := a), List.take_take, Nat.min_eq_left (Nat.le_succ cap)]

end Radiata.Lib
