import Mathlib

/-!
# Ascending association lists

A sorted vector of key/value pairs with distinct keys, searched by its partition
point.  `Ascending.cut` is the one structural fact: the partition point splits the
list into the keys below and the keys above, with the sought entry between them
exactly when it is present.  Lookup, insertion and removal at the partition point
are then computations on an append.
-/

namespace Radiata.Lib

variable {K V : Type*} [LinearOrder K]

def Ascending (l : List (K × V)) : Prop := l.Pairwise fun a b => a.1 < b.1

def partitionPoint (k : K) (l : List (K × V)) : ℕ :=
  (l.takeWhile fun e => decide (e.1 < k)).length

variable {α : Type*}

lemma takeWhile_eq_filter_of_pairwise {p : α → Bool} {l : List α}
    (h : l.Pairwise fun a b => p b = true → p a = true) : l.takeWhile p = l.filter p := by
  induction l with
  | nil => rfl
  | cons a l ih =>
    obtain ⟨hhead, htail⟩ := List.pairwise_cons.mp h
    by_cases ha : p a = true
    · rw [List.takeWhile_cons_of_pos ha, List.filter_cons_of_pos ha, ih htail]
    · have hnone : l.filter p = [] :=
        List.filter_eq_nil_iff.mpr fun b hb hpb => ha (hhead b hb hpb)
      rw [List.takeWhile_cons_of_neg ha, List.filter_cons_of_neg ha, hnone]

namespace Ascending

variable {l : List (K × V)} {k : K}

lemma nil : Ascending ([] : List (K × V)) := List.Pairwise.nil

section

variable (h : Ascending l)
include h

lemma nodup : l.Nodup :=
  List.Pairwise.imp (fun hab heq => absurd (heq ▸ hab) (lt_irrefl _)) h

lemma eq_of_mem_of_mem {v w : V} (hv : (k, v) ∈ l) (hw : (k, w) ∈ l) : v = w := by
  induction l with
  | nil => simp at hv
  | cons e l ih =>
    obtain ⟨hhead, htail⟩ := List.pairwise_cons.mp h
    rcases List.mem_cons.mp hv with hv | hv <;> rcases List.mem_cons.mp hw with hw | hw
    · rw [← hv] at hw
      exact (Prod.mk.inj hw).2.symm
    · exact absurd (hhead _ hw) (by rw [← hv]; exact lt_irrefl k)
    · exact absurd (hhead _ hv) (by rw [← hw]; exact lt_irrefl k)
    · exact ih htail hv hw

lemma ext {l' : List (K × V)} (h' : Ascending l') (hmem : ∀ e, e ∈ l ↔ e ∈ l') : l = l' := by
  have hperm : l.Perm l' := (List.perm_ext_iff_of_nodup h.nodup h'.nodup).mpr hmem
  have hanti : ∀ a b : K × V, a ∈ l → b ∈ l' → a.1 < b.1 → b.1 < a.1 → a = b :=
    fun _ _ _ _ hab hba => absurd (hab.trans hba) (lt_irrefl _)
  exact hperm.eq_of_pairwise hanti h h'

lemma takeWhile_eq_filter (k : K) :
    (l.takeWhile fun e => decide (e.1 < k)) = l.filter fun e => decide (e.1 < k) :=
  takeWhile_eq_filter_of_pairwise <| h.imp fun hab hb =>
    decide_eq_true (hab.trans (of_decide_eq_true hb))

lemma cut (k : K) : ∃ below above, (∀ e ∈ below, e.1 < k) ∧ (∀ e ∈ above, k < e.1) ∧
      partitionPoint k l = below.length ∧
      (l = below ++ above ∨ ∃ v, l = below ++ (k, v) :: above) := by
  induction l with
  | nil => exact ⟨[], [], by simp, by simp, rfl, Or.inl rfl⟩
  | cons e l ih =>
    obtain ⟨hhead, htail⟩ := List.pairwise_cons.mp h
    rcases lt_trichotomy e.1 k with hlt | heq | hgt
    · obtain ⟨below, above, hb, ha, hp, hl⟩ := ih htail
      refine ⟨e :: below, above, ?_, ha, ?_, ?_⟩
      · intro x hx
        rcases List.mem_cons.mp hx with rfl | hx
        · exact hlt
        · exact hb x hx
      · simpa [partitionPoint, hlt] using hp
      · rcases hl with rfl | ⟨v, rfl⟩
        · exact Or.inl rfl
        · exact Or.inr ⟨v, rfl⟩
    · refine ⟨[], l, by simp, fun x hx => heq ▸ hhead x hx, ?_, Or.inr ⟨e.2, ?_⟩⟩
      · simp [partitionPoint, heq]
      · rw [← heq]
        rfl
    · refine ⟨[], e :: l, by simp, ?_, ?_, Or.inl rfl⟩
      · intro x hx
        rcases List.mem_cons.mp hx with rfl | hx
        · exact hgt
        · exact hgt.trans (hhead x hx)
      · simp [partitionPoint, hgt.le]

end

variable {below above : List (K × V)}

lemma append_cons {v : V} (h : Ascending (below ++ above)) (hb : ∀ e ∈ below, e.1 < k)
    (ha : ∀ e ∈ above, k < e.1) : Ascending (below ++ (k, v) :: above) := by
  obtain ⟨h1, h2, h3⟩ := List.pairwise_append.mp h
  refine List.pairwise_append.mpr ⟨h1, List.pairwise_cons.mpr ⟨ha, h2⟩, ?_⟩
  intro a hbelow b hab
  rcases List.mem_cons.mp hab with rfl | hab
  · exact hb a hbelow
  · exact h3 a hbelow b hab

lemma of_append_cons {e : K × V} (h : Ascending (below ++ e :: above)) :
    Ascending (below ++ above) :=
  List.Pairwise.sublist (List.Sublist.append_left (List.sublist_cons_self _ _) _) h

lemma filter (h : Ascending l) (p : K × V → Bool) : Ascending (l.filter p) :=
  List.Pairwise.filter p h

end Ascending

lemma insertIdx_length_append (a b : List α) (x : α) :
    (a ++ b).insertIdx a.length x = a ++ x :: b := by
  induction a with
  | nil => simp
  | cons y a ih => simpa using ih

lemma eraseIdx_length_append (a b : List α) (x : α) :
    (a ++ x :: b).eraseIdx a.length = a ++ b := by
  induction a with
  | nil => simp
  | cons y a ih => simpa using ih

end Radiata.Lib
