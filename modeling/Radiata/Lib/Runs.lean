import Mathlib

/-!
# Invariants along a run

A run feeds inputs to a state one after another.  Where only the steps of this run are known
to preserve a property, not every step of the system, the rule asks for the step at each
place the run can be cut.
-/

namespace Radiata.Lib

open List (append_assoc cons_append length length_append)

variable {S α β : Type*} {step : S → α → S}

variable {s : S} {as : List α}

/-- **The invariant rule**: what a run's own steps preserve holds wherever the run is cut. -/
theorem invariant_of_run {Inv : S → Prop} (hstart : Inv s)
    (hstep : ∀ before a after, as = before ++ a :: after → Inv (before.foldl step s) → Inv (step
      (before.foldl step s) a)) (before after : List α) (hcut : as = before ++ after) :
    Inv (before.foldl step s) := by
  -- the induction is on the part already run, from its last step
  induction before using List.reverseRecOn generalizing after with
  | nil => exact hstart
  | append_singleton before a ih =>
    have hsplit : as = before ++ a :: after := by rw [hcut, append_assoc]; rfl
    rw [List.foldl_append]
    exact hstep before a after hsplit (ih (a :: after) hsplit)

def EveryStep (step : S → α → S) (P : S → α → Prop) (s : S) (as : List α) : Prop :=
  ∀ before a after, as = before ++ a :: after → P (before.foldl step s) a

section EveryStep

variable {P : S → α → Prop} {s : S} {a : α} {as bs : List α}

lemma everyStep_nil : EveryStep step P s [] := by
  intro before a after h
  cases before <;> cases h

lemma everyStep_cons :
    EveryStep step P s (a :: as) ↔ P s a ∧ EveryStep step P (step s a) as := by
  constructor
  · intro h
    exact ⟨h [] a as rfl, fun before b after hsplit =>
      h (a :: before) b after (congrArg (a :: ·) hsplit)⟩
  · rintro ⟨hfirst, hrest⟩ before b after hsplit
    cases before with
    | nil =>
      obtain ⟨rfl, -⟩ := List.cons.inj hsplit
      exact hfirst
    | cons first before =>
      obtain ⟨rfl, rfl⟩ := List.cons.inj hsplit
      exact hrest before b after rfl

lemma EveryStep.mono {Q : S → α → Prop} (h : EveryStep step P s as) (hle : ∀ s a, P s a → Q s a) :
    EveryStep step Q s as :=
  fun before a after hsplit => hle _ a (h before a after hsplit)

lemma EveryStep.append (has : EveryStep step P s as)
    (hbs : EveryStep step P (as.foldl step s) bs) : EveryStep step P s (as ++ bs) := by
  induction as generalizing s with
  | nil => exact hbs
  | cons a as ih =>
    obtain ⟨hfirst, hrest⟩ := everyStep_cons.mp has
    exact everyStep_cons.mpr ⟨hfirst, ih hrest hbs⟩

instance EveryStep.decidable [∀ s a, Decidable (P s a)] :
    ∀ (s : S) (as : List α), Decidable (EveryStep step P s as)
  | _, [] => .isTrue everyStep_nil
  | s, a :: as =>
    have := EveryStep.decidable (step s a) as
    decidable_of_iff (P s a ∧ EveryStep step P (step s a) as) everyStep_cons.symm

end EveryStep

def outputs (step : S → α → S) (out : S → α → List β) : S → List α → List β
  | _, [] => []
  | s, a :: as => out s a ++ outputs step out (step s a) as

lemma outputs_append (out : S → α → List β) (s : S) (as bs : List α) :
    outputs step out s (as ++ bs) =
      outputs step out s as ++ outputs step out (as.foldl step s) bs := by
  induction as generalizing s with
  | nil => rfl
  | cons a as ih => rw [cons_append, outputs, outputs, ih, append_assoc]; rfl

section Queue

/-!
A queue inside a state.  A step loses some of what is queued, pops some and pushes some; the
step law says that nothing else happens to the queue and that order is kept.
-/

variable {queue : S → List β} {pushes pops losses : S → α → List β}

lemma length_outputs_of_queue
    (hstep : ∀ s a, losses s a ++ (pops s a ++ queue (step s a)) = queue s ++ pushes s a)
    (s : S) (as : List α) :
    (outputs step losses s as).length +
        ((outputs step pops s as).length + (queue (as.foldl step s)).length) =
      (queue s).length + (outputs step pushes s as).length := by
  induction as generalizing s with
  | nil => simp [outputs]
  | cons a as ih =>
    have hone := congrArg length (hstep s a)
    have hrest := ih (step s a)
    simp only [outputs, List.foldl_cons, length_append] at hone hrest ⊢
    omega

lemma outputs_of_lossless
    (hstep : ∀ s a, losses s a ++ (pops s a ++ queue (step s a)) = queue s ++ pushes s a)
    (hkept : EveryStep step (fun s a => losses s a = []) s as) :
    outputs step pops s as ++ queue (as.foldl step s) =
      queue s ++ outputs step pushes s as := by
  induction as generalizing s with
  | nil => simp [outputs]
  | cons a as ih =>
    obtain ⟨hfirst, hrest⟩ := everyStep_cons.mp hkept
    have hone := hstep s a
    rw [hfirst, List.nil_append] at hone
    rw [outputs, outputs, List.foldl_cons, append_assoc, ih hrest, ← append_assoc,
      hone, append_assoc]

lemma everyStep_of_outputs_eq_nil (h : (outputs step losses s as).length = 0) :
    EveryStep step (fun s a => losses s a = []) s as := by
  induction as generalizing s with
  | nil => exact everyStep_nil
  | cons a as ih =>
    rw [outputs, length_append, Nat.add_eq_zero_iff] at h
    exact everyStep_cons.mpr ⟨List.length_eq_zero_iff.mp h.1, ih h.2⟩

/-- **A queue is lossless exactly when no step loses anything**: a loss is never made up
for, as the lengths no longer agree. -/
theorem outputs_eq_iff_lossless
    (hstep : ∀ s a, losses s a ++ (pops s a ++ queue (step s a)) = queue s ++ pushes s a) :
    outputs step pops s as ++ queue (as.foldl step s) = queue s ++ outputs step pushes s as ↔
      EveryStep step (fun s a => losses s a = []) s as := by
  refine ⟨fun h => everyStep_of_outputs_eq_nil ?_, outputs_of_lossless hstep⟩
  have htotal := length_outputs_of_queue hstep s as
  have hlength := congrArg length h
  simp only [length_append] at hlength
  omega

lemma length_outputs_of_served {k : ℕ} {serves : α → Bool}
    (hstep : ∀ s a, losses s a ++ (pops s a ++ queue (step s a)) = queue s ++ pushes s a)
    (hserved : ∀ s a, losses s a = [] → serves a = true → min k (queue s).length ≤ (pops s
      a).length) (hkept : EveryStep step (fun s a => losses s a = []) s as) :
    min (k * as.countP serves) (queue s).length ≤ (outputs step pops s as).length := by
  induction as generalizing s with
  | nil => simp [outputs]
  | cons a as ih =>
    obtain ⟨hfirst, hrest⟩ := everyStep_cons.mp hkept
    have hone := congrArg length (hstep s a)
    have hlater := ih hrest
    rw [hfirst] at hone
    simp only [outputs, length_append, List.length_nil] at hone ⊢
    cases hserves : serves a with
    | false =>
      rw [List.countP_cons_of_neg (by simp [hserves])]
      omega
    | true =>
      have hnow := hserved s a hfirst hserves
      rw [List.countP_cons_of_pos hserves, Nat.mul_succ]
      omega

end Queue

def Since (step : S → α → S) (resets : α → Bool) (P : S → α → Prop) (s : S) (as : List α) : Prop :=
  ∃ before a after, as = before ++ a :: after ∧ (∀ b ∈ a :: after, resets b = false) ∧
    P (before.foldl step s) a

variable {resets : α → Bool} {P : S → α → Prop}

lemma Since.imp {Q : S → α → Prop} (h : Since step resets P s as)
    (himp : ∀ s a, resets a = false → P s a → Q s a) : Since step resets Q s as := by
  obtain ⟨before, a, after, hsplit, hquiet, ha⟩ := h
  exact ⟨before, a, after, hsplit, hquiet, himp _ _ (hquiet a List.mem_cons_self) ha⟩

lemma not_since_nil : ¬ Since step resets P s [] := by
  rintro ⟨before, a, after, hsplit, -⟩
  cases before <;> cases hsplit

lemma since_concat {a : α} : Since step resets P s (as ++ [a]) ↔
      resets a = false ∧ (P (as.foldl step s) a ∨ Since step resets P s as) := by
  constructor
  · rintro ⟨before, b, after, hsplit, hquiet, hb⟩
    -- the last step is the one that met the condition, or comes after it
    rcases List.eq_nil_or_concat after with rfl | ⟨after, c, rfl⟩
    · obtain ⟨rfl, hlast⟩ := List.append_inj' hsplit rfl
      obtain rfl : a = b := by simpa using hlast
      exact ⟨hquiet a List.mem_cons_self, .inl hb⟩
    · rw [List.concat_eq_append, ← cons_append, ← append_assoc] at hsplit
      obtain ⟨rfl, hlast⟩ := List.append_inj' hsplit rfl
      obtain rfl : a = c := by simpa using hlast
      refine ⟨hquiet a (by simp), .inr ⟨before, b, after, rfl, fun d hd => hquiet d ?_, hb⟩⟩
      rw [List.concat_eq_append, ← cons_append]
      exact List.mem_append_left _ hd
  · rintro ⟨hquiet, hlast | ⟨before, b, after, rfl, hrest, hb⟩⟩
    · exact ⟨as, a, [], rfl, by simpa using hquiet, hlast⟩
    · refine ⟨before, b, after ++ [a], by simp, fun d hd => ?_, hb⟩
      rw [← cons_append] at hd
      rcases List.mem_append.mp hd with hd | hd
      · exact hrest d hd
      · rw [List.mem_singleton.mp hd]
        exact hquiet

end Radiata.Lib
