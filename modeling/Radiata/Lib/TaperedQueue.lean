import Mathlib

/-!
# Queues that taper off

A queue is drained from the front by `drain` entries a round while at most `arrivals`
entries of one kind join it at the back and a ceiling bounds how many of the other
kind it holds.  If the drain outruns the arrivals the queue cannot grow without
bound, although nothing limits the first kind: an entry at position `i` joined at
least `i / drain` rounds before the queue was longest, so few of the first kind
stand behind it.

`Tapered` is the inductive form of that remark and `Tapered.step` its invariance.
-/

namespace Radiata.Lib

variable {α : Type*}

/-- Behind every position there are only the entries of the free kind that the rounds
since its arrival could have added. -/
structure Tapered (free : α → Bool) (drain arrivals bound : ℕ) (q : List α) : Prop where
  length_le : q.length ≤ bound
  behind : ∀ i ≤ q.length, drain * (q.drop i).countP free ≤ arrivals * (bound - i + drain)

namespace Tapered

variable {free : α → Bool} {drain arrivals bound : ℕ} {q pushed : List α}

lemma nil : Tapered free drain arrivals bound [] := ⟨by simp, by simp⟩

lemma behind_step (h : Tapered free drain arrivals bound q)
    (hpushed : pushed.countP free ≤ arrivals) (i : ℕ) :
    drain * (((q ++ pushed).drop drain).drop i).countP free ≤ arrivals * (bound - i + drain) := by
  have hnew : drain * pushed.countP free ≤ arrivals * drain := by
    rw [mul_comm]
    exact Nat.mul_le_mul_right drain hpushed
  rw [List.drop_drop]
  rcases le_or_gt (drain + i) q.length with hle | hgt
  · -- The position was in the queue before: its tail grew by what was pushed.
    have hold := h.behind (drain + i) hle
    have hlen := h.length_le
    have hshift : bound - (drain + i) + drain = bound - i := by omega
    rw [hshift] at hold
    rw [List.drop_append_of_le_length hle, List.countP_append, mul_add, mul_add]
    exact Nat.add_le_add hold hnew
  · -- The position was pushed in this round.
    have hsub : ((q ++ pushed).drop (drain + i)).countP free ≤ pushed.countP free := by
      rw [List.drop_append, List.drop_eq_nil_of_le hgt.le, List.nil_append]
      exact List.Sublist.countP_le (List.drop_sublist _ _)
    calc drain * ((q ++ pushed).drop (drain + i)).countP free
        ≤ drain * pushed.countP free := Nat.mul_le_mul_left drain hsub
      _ ≤ arrivals * drain := hnew
      _ ≤ arrivals * (bound - i + drain) := Nat.mul_le_mul_left arrivals (Nat.le_add_left _ _)

/-- **One round keeps a queue tapered** when the drain outruns the arrivals and the
other kind is under its ceiling. -/
theorem step {ceiling : ℕ} (h : Tapered free drain arrivals bound q) (hdrain : 0 < drain)
    (hbound : drain * ceiling + arrivals * (bound + drain) ≤ drain * bound)
    (hpushed : pushed.countP free ≤ arrivals)
    (hceiling : ((q ++ pushed).drop drain).countP (fun a => !free a) ≤ ceiling) :
    Tapered free drain arrivals bound ((q ++ pushed).drop drain) := by
  refine ⟨?_, fun i _ => h.behind_step hpushed i⟩
  have hfree := h.behind_step hpushed 0
  rw [List.drop_zero, Nat.sub_zero] at hfree
  have hcount := List.length_eq_countP_add_countP free (l := (q ++ pushed).drop drain)
  have hother : ((q ++ pushed).drop drain).countP (fun a => decide ¬free a = true) ≤ ceiling := by
    simpa using hceiling
  have hmul := Nat.mul_le_mul_left drain hother
  refine Nat.le_of_mul_le_mul_left ?_ hdrain
  calc drain * ((q ++ pushed).drop drain).length
      = drain * ((q ++ pushed).drop drain).countP free +
          drain * ((q ++ pushed).drop drain).countP (fun a => decide ¬free a = true) := by
        rw [hcount, mul_add]
    _ ≤ arrivals * (bound + drain) + drain * ceiling := Nat.add_le_add hfree hmul
    _ ≤ drain * bound := by omega

end Tapered

end Radiata.Lib
