import Mathlib

/-!
# Lists of separated intervals

A finite set of points of a linear order, kept as a list of closed intervals.  Adding a
point merges the intervals it touches into one and leaves the others.  An interval is
touched when no point lies strictly between it and the new point, so that separated
intervals are neither overlapping nor adjacent; in a dense order only overlaps merge, in a
discrete one neighbours do.
-/

namespace Radiata.Lib

variable {α : Type*} [LinearOrder α] {x y : α}

def Gap (x y : α) : Prop := ∃ g, x < g ∧ g < y

def Covers (intervals : List (α × α)) (x : α) : Prop := ∃ i ∈ intervals, i.1 ≤ x ∧ x ≤ i.2

structure Separated (intervals : List (α × α)) : Prop where
  ordered : ∀ i ∈ intervals, i.1 ≤ i.2
  apart : intervals.Pairwise fun i j => Gap i.2 j.1

lemma separated_nil : Separated ([] : List (α × α)) := ⟨by simp, .nil⟩

def hull (x : α) (touched : List (α × α)) : α × α :=
  (touched.foldl (fun start i => min start i.1) x, touched.foldl (fun stop i => max stop i.2) x)

def Touches (x : α) (i : α × α) : Prop := ¬ Gap x i.1 ∧ ¬ Gap i.2 x

section Hull

variable {touched : List (α × α)}

lemma hull_fst_le (x : α) (touched : List (α × α)) : (hull x touched).1 ≤ x := by
  unfold hull
  induction touched generalizing x with
  | nil => exact le_rfl
  | cons i touched ih => exact (ih _).trans (min_le_left _ _)

lemma le_hull_snd (x : α) (touched : List (α × α)) : x ≤ (hull x touched).2 := by
  unfold hull
  induction touched generalizing x with
  | nil => exact le_rfl
  | cons i touched ih => exact (le_max_left _ _).trans (ih _)

lemma hull_fst_mem (x : α) (touched : List (α × α)) :
    (hull x touched).1 = x ∨ ∃ i ∈ touched, (hull x touched).1 = i.1 := by
  unfold hull
  induction touched generalizing x with
  | nil => exact .inl rfl
  | cons i touched ih =>
    rcases ih (min x i.1) with h | ⟨j, hj, h⟩
    · rcases min_choice x i.1 with hmin | hmin
      · exact .inl (h.trans hmin)
      · exact .inr ⟨i, List.mem_cons_self, h.trans hmin⟩
    · exact .inr ⟨j, List.mem_cons_of_mem _ hj, h⟩

lemma hull_snd_mem (x : α) (touched : List (α × α)) :
    (hull x touched).2 = x ∨ ∃ i ∈ touched, (hull x touched).2 = i.2 := by
  unfold hull
  induction touched generalizing x with
  | nil => exact .inl rfl
  | cons i touched ih =>
    rcases ih (max x i.2) with h | ⟨j, hj, h⟩
    · rcases max_choice x i.2 with hmax | hmax
      · exact .inl (h.trans hmax)
      · exact .inr ⟨i, List.mem_cons_self, h.trans hmax⟩
    · exact .inr ⟨j, List.mem_cons_of_mem _ hj, h⟩

lemma hull_contains {i : α × α} (h : i ∈ touched) (x : α) :
    (hull x touched).1 ≤ i.1 ∧ i.2 ≤ (hull x touched).2 := by
  unfold hull
  induction touched generalizing x with
  | nil => exact absurd h List.not_mem_nil
  | cons j touched ih =>
    rcases List.mem_cons.mp h with rfl | h
    · exact ⟨(hull_fst_le (min x i.1) touched).trans (min_le_right _ _),
        (le_max_right _ _).trans (le_hull_snd (max x i.2) touched)⟩
    · exact ⟨(ih h (min x j.1)).1, (ih h (max x j.2)).2⟩

/-- **The hull of touched intervals adds nothing but the point.** -/
theorem mem_hull_iff (htouched : ∀ i ∈ touched, Touches x i) :
    (hull x touched).1 ≤ y ∧ y ≤ (hull x touched).2 ↔ y = x ∨ Covers touched y := by
  constructor
  · rintro ⟨hstart, hstop⟩
    rcases lt_trichotomy y x with hlt | heq | hgt
    · -- below the point: the interval that gives the lower end reaches up to the point
      rcases hull_fst_mem x touched with h | ⟨i, hi, h⟩
      · exact absurd (h ▸ hstart) (not_le.mpr hlt)
      · refine .inr ⟨i, hi, h ▸ hstart, not_lt.mp fun hbelow => ?_⟩
        exact (htouched i hi).2 ⟨y, hbelow, hlt⟩
    · exact .inl heq
    · rcases hull_snd_mem x touched with h | ⟨i, hi, h⟩
      · exact absurd (h ▸ hstop) (not_le.mpr hgt)
      · refine .inr ⟨i, hi, not_lt.mp fun habove => ?_, h ▸ hstop⟩
        exact (htouched i hi).1 ⟨y, hgt, habove⟩
  · rintro (rfl | ⟨i, hi, hlow, hhigh⟩)
    · exact ⟨hull_fst_le y touched, le_hull_snd y touched⟩
    · obtain ⟨hstart, hstop⟩ := hull_contains hi x
      exact ⟨hstart.trans hlow, hhigh.trans hstop⟩

end Hull

section Insert

variable {intervals intervals' : List (α × α)} {touches : α × α → Bool}

lemma covers_insert (htouches : ∀ i ∈ intervals, touches i = true ↔ Touches x i)
    (hperm : intervals'.Perm
      (intervals.filter (fun i => !touches i) ++ [hull x (intervals.filter touches)])) :
    Covers intervals' y ↔ y = x ∨ Covers intervals y := by
  have htouched : ∀ i ∈ intervals.filter touches, Touches x i := fun i hi =>
    (htouches i (List.mem_filter.mp hi).1).mp (List.mem_filter.mp hi).2
  have hsplit : Covers intervals' y ↔
      Covers (intervals.filter fun i => !touches i) y ∨
        ((hull x (intervals.filter touches)).1 ≤ y ∧
          y ≤ (hull x (intervals.filter touches)).2) := by
    simp only [Covers, hperm.mem_iff, List.mem_append, List.mem_singleton, or_and_right, exists_or,
      exists_eq_left]
  have hall : Covers intervals y ↔
      Covers (intervals.filter fun i => !touches i) y ∨ Covers (intervals.filter touches) y := by
    simp only [Covers, List.mem_filter, ← exists_or]
    refine exists_congr fun i => ?_
    cases touches i <;> simp
  rw [hsplit, mem_hull_iff htouched, hall]
  exact or_left_comm

section

variable (h : Separated intervals)
include h

lemma Separated.gap {i j : α × α} (hi : i ∈ intervals) (hj : j ∈ intervals) (hne : i ≠ j) :
    Gap i.2 j.1 ∨ Gap j.2 i.1 := by
  have hsymm : intervals.Pairwise fun i j => Gap i.2 j.1 ∨ Gap j.2 i.1 := h.apart.imp .inl
  have : Std.Symm fun i j : α × α => Gap i.2 j.1 ∨ Gap j.2 i.1 := ⟨fun _ _ => Or.symm⟩
  exact hsymm.forall hi hj hne

lemma gap_hull (htouches : ∀ i ∈ intervals, touches i = true ↔ Touches x i) {i : α × α}
    (hi : i ∈ intervals) (huntouched : touches i = false) :
    Gap i.2 (hull x (intervals.filter touches)).1 ∨
      Gap (hull x (intervals.filter touches)).2 i.1 := by
  have hfree : Gap x i.1 ∨ Gap i.2 x := by
    by_contra hnone
    rw [not_or] at hnone
    exact Bool.false_ne_true (huntouched.symm.trans ((htouches i hi).mpr hnone))
  have hother {j : α × α} (hj : j ∈ intervals.filter touches) :
      Touches x j ∧ (Gap j.2 i.1 ∨ Gap i.2 j.1) := by
    obtain ⟨hmem, htouch⟩ := List.mem_filter.mp hj
    refine ⟨(htouches j hmem).mp htouch, h.gap hmem hi ?_⟩
    rintro rfl
    exact Bool.false_ne_true (huntouched.symm.trans htouch)
  have hwidth := h.ordered i hi
  rcases hfree with ⟨g, hlow, hhigh⟩ | ⟨g, hlow, hhigh⟩
  · refine .inr ?_
    rcases hull_snd_mem x (intervals.filter touches) with heq | ⟨j, hj, heq⟩
    · exact ⟨g, heq.trans_lt hlow, hhigh⟩
    · obtain ⟨htouch, hgap | ⟨g', hlow', hhigh'⟩⟩ := hother hj
      · exact heq ▸ hgap
      · exact absurd ⟨g, hlow, hhigh.trans (hwidth.trans_lt (hlow'.trans hhigh'))⟩ htouch.1
  · refine .inl ?_
    rcases hull_fst_mem x (intervals.filter touches) with heq | ⟨j, hj, heq⟩
    · exact ⟨g, hlow, hhigh.trans_eq heq.symm⟩
    · obtain ⟨htouch, ⟨g', hlow', hhigh'⟩ | hgap⟩ := hother hj
      · exact absurd ⟨g, (hlow'.trans hhigh').trans_le hwidth |>.trans hlow, hhigh⟩ htouch.2
      · exact heq ▸ hgap

/-- **Adding a point keeps a list separated**, once it is sorted again by lower ends. -/
theorem Separated.insert (htouches : ∀ i ∈ intervals, touches i = true ↔ Touches x i)
    (hperm : intervals'.Perm (intervals.filter (fun i => !touches i) ++ [hull x (intervals.filter
      touches)])) (hsorted : intervals'.Pairwise fun i j => i.1 ≤ j.1) : Separated intervals' := by
  have hordered : ∀ i ∈ intervals', i.1 ≤ i.2 := by
    intro i hi
    rcases List.mem_append.mp (hperm.mem_iff.mp hi) with hrest | hmerged
    · exact h.ordered i (List.mem_filter.mp hrest).1
    · rw [List.mem_singleton.mp hmerged]
      exact (hull_fst_le _ _).trans (le_hull_snd _ _)
  have hapart : (intervals.filter (fun i => !touches i) ++
      [hull x (intervals.filter touches)]).Pairwise fun i j => Gap i.2 j.1 ∨ Gap j.2 i.1 := by
    refine List.pairwise_append.mpr ⟨(h.apart.imp .inl).filter _, List.pairwise_singleton _ _, ?_⟩
    intro i hi j hj
    obtain ⟨hmem, huntouched⟩ := List.mem_filter.mp hi
    rw [List.mem_singleton.mp hj]
    exact gap_hull h htouches hmem (by simpa using huntouched)
  refine ⟨hordered, ?_⟩
  -- of the two ways to be apart, the order of the lower ends leaves one
  have hboth := hsorted.and (hperm.symm.pairwise hapart fun hij => hij.symm)
  refine hboth.imp_of_mem ?_
  rintro i j - hj ⟨hle, hgap | ⟨g, hlow, hhigh⟩⟩
  · exact hgap
  · exact absurd (hle.trans (hordered j hj)) (not_le.mpr (hlow.trans hhigh))

end

end Insert

end Radiata.Lib
