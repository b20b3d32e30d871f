import Mathlib.Logic.Function.Basic

/-!
# Exclusive sections

Parties that run their stages concurrently, and one exclusive section among them.  Which stages
are inside the section is a parameter; that at most one party is inside is an invariant of the
moves, not a condition on them.
-/

namespace Radiata.Lib

structure Section (τ σ : Type*) where
  holder : Option τ
  stage : τ → σ

namespace Section

variable {τ σ : Type*} [DecidableEq τ] (c : Section τ σ) (t : τ) (next : σ)

def move : Section τ σ := { c with stage := Function.update c.stage t next }

def enter : Section τ σ := { c.move t next with holder := some t }

def leave : Section τ σ := { c.move t next with holder := none }

def Exclusive (inside : σ → Bool) : Prop := ∀ t, inside (c.stage t) = true → c.holder = some t

variable {c t next} {inside : σ → Bool}

@[simp] theorem stage_move_self : (c.move t next).stage t = next := Function.update_self _ _ _

theorem stage_move_of_ne {u : τ} (h : u ≠ t) : (c.move t next).stage u = c.stage u :=
  Function.update_of_ne h _ _

@[simp] theorem stage_enter : (c.enter t next).stage = (c.move t next).stage := rfl

@[simp] theorem stage_leave : (c.leave t next).stage = (c.move t next).stage := rfl

theorem of_move {P : σ → Prop} {u : τ} (h : P ((c.move t next).stage u)) :
    P (c.stage u) ∨ u = t ∧ P next := by
  by_cases heq : u = t
  · subst heq
    rw [stage_move_self] at h
    exact .inr ⟨rfl, h⟩
  · rw [stage_move_of_ne heq] at h
    exact .inl h

theorem of_move_of_not {P : σ → Prop} {u : τ} (h : P ((c.move t next).stage u)) (hnot : ¬ P next) :
    P (c.stage u) :=
  (of_move h).resolve_right fun hu => hnot hu.2

section

variable (h : c.Exclusive inside)
include h

omit [DecidableEq τ] in
theorem Exclusive.eq {u : τ} (ht : inside (c.stage t) = true) (hu : inside (c.stage u) = true) :
    t = u :=
  Option.some.inj ((h t ht).symm.trans (h u hu))

theorem Exclusive.move (hin : inside next = true → inside (c.stage t) = true) :
    (c.move t next).Exclusive inside := by
  intro u hu
  by_cases heq : u = t
  · subst heq
    rw [stage_move_self] at hu
    exact h u (hin hu)
  · rw [stage_move_of_ne heq] at hu
    exact h u hu

theorem Exclusive.enter (free : c.holder = none) : (c.enter t next).Exclusive inside := by
  intro u hu
  by_cases heq : u = t
  · rw [heq]
    rfl
  · rw [stage_enter, stage_move_of_ne heq] at hu
    -- nobody else was inside, since nobody held it
    exact absurd (free.symm.trans (h u hu)) (Option.some_ne_none u).symm

theorem Exclusive.leave (ht : inside (c.stage t) = true) (hout : inside next = false) :
    (c.leave t next).Exclusive inside := by
  intro u hu
  by_cases heq : u = t
  · rw [heq, stage_leave, stage_move_self, hout] at hu
    exact absurd hu Bool.false_ne_true
  · rw [stage_leave, stage_move_of_ne heq] at hu
    exact absurd (h.eq hu ht) heq

end

end Section

end Radiata.Lib
