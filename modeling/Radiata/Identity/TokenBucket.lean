import Mathlib

/-!
# The token bucket of merge admission

A bucket holds up to `burst` tokens in fixed point and regains `burst` tokens in each window.  An
attempt refills the bucket for the time since its last refill, rounded down, and is granted if a
whole token is there.  A refused attempt takes nothing, but it has refilled: what it rounded off
is gone.  A schedule in which no refused attempt rounds goes on as if they were not there.

The limits accept every burst and window but zero.  Times and windows are in nanoseconds.
-/

namespace Radiata.Identity

@[irreducible] def tokenScale : ℕ := 2 ^ 32

structure TokenBucket where
  burst : UInt32
  window : ℕ
  tokens : ℕ
  lastRefill : ℕ
deriving DecidableEq

namespace TokenBucket

def new (now : ℕ) (burst : UInt32) (window : ℕ) : TokenBucket :=
  ⟨burst, window, burst.toNat * tokenScale, now⟩

section

variable (b : TokenBucket)

def capacity : ℕ := b.burst.toNat * tokenScale

/-- What the bucket gains in a time, in 128-bit arithmetic. -/
def gained (elapsed : ℕ) : ℕ :=
  elapsed * b.burst.toNat * tokenScale % 2 ^ 128 / max b.window 1

variable (now : ℕ)

def refill : TokenBucket :=
  if now - b.lastRefill = 0 then b
  else if b.burst = 0 ∨ b.window = 0 then { b with lastRefill := now }
  else
    { b with
      tokens := min (b.tokens + b.gained (now - b.lastRefill)) b.capacity
      lastRefill := now }

def admits : Bool := tokenScale ≤ b.tokens

def consume : TokenBucket := { b with tokens := b.tokens - tokenScale }

/-- An attempt as this bucket decides it. -/
def attempt : TokenBucket :=
  if (b.refill now).admits then (b.refill now).consume else b.refill now

def grants : Bool := (b.refill now).admits

end

/-- The attempts of a schedule that are granted. -/
def granted (b : TokenBucket) : List ℕ → List ℕ
  | [] => []
  | now :: rest =>
    if b.grants now then now :: (b.attempt now).granted rest else (b.attempt now).granted rest

def after (b : TokenBucket) (times : List ℕ) : TokenBucket := times.foldl attempt b

/-- The limits accept the bucket. -/
structure Accepted (b : TokenBucket) : Prop where
  burst : b.burst ≠ 0
  window : b.window ≠ 0

/-- A refill at `now` rounds nothing off. -/
def RefillsWhole (b : TokenBucket) (now : ℕ) : Prop :=
  b.window ∣ (now - b.lastRefill) * b.burst.toNat * tokenScale

/-- No refused attempt of the schedule rounds anything off. -/
def Unrounded (b : TokenBucket) : List ℕ → Prop
  | [] => True
  | now :: rest => (b.grants now = false → b.RefillsWhole now) ∧ (b.attempt now).Unrounded rest

instance (b : TokenBucket) (now : ℕ) : Decidable (b.RefillsWhole now) :=
  inferInstanceAs (Decidable (_ ∣ _))

instance decidableUnrounded : ∀ (b : TokenBucket) (times : List ℕ), Decidable (b.Unrounded times)
  | _, [] => .isTrue trivial
  | b, now :: rest =>
    have := decidableUnrounded (b.attempt now) rest
    inferInstanceAs (Decidable (_ ∧ _))

variable {b : TokenBucket} {t now : ℕ} {times : List ℕ}

lemma tokenScale_eq : tokenScale = 2 ^ 32 := by
  unfold tokenScale
  rfl

/-! ## Two refills as one -/

lemma gained_eq (h : b.Accepted) {elapsed : ℕ} (hclock : elapsed < 2 ^ 64) :
    b.gained elapsed = elapsed * b.burst.toNat * tokenScale / b.window := by
  have hproduct : elapsed * b.burst.toNat * tokenScale < 2 ^ 128 := by
    rw [tokenScale_eq]
    calc elapsed * b.burst.toNat * 2 ^ 32 < 2 ^ 64 * 2 ^ 32 * 2 ^ 32 :=
          Nat.mul_lt_mul_of_pos_right (Nat.mul_lt_mul'' hclock b.burst.toNat_lt) (by decide)
      _ = 2 ^ 128 := by decide
  rw [gained, Nat.mod_eq_of_lt hproduct, Nat.max_eq_left (Nat.one_le_iff_ne_zero.mpr h.window)]

lemma refill_lastRefill (b : TokenBucket) : b.refill b.lastRefill = b := by
  simp [refill]

section

variable (h : b.Accepted)
include h

lemma refill_of_lt (hlater : b.lastRefill < now) : b.refill now =
      ⟨b.burst, b.window, min (b.tokens + b.gained (now - b.lastRefill)) b.capacity, now⟩ := by
  rw [refill, if_neg (Nat.sub_ne_zero_of_lt hlater), if_neg (not_or.mpr ⟨h.burst, h.window⟩)]

lemma lastRefill_refill (hlater : b.lastRefill ≤ now) : (b.refill now).lastRefill = now := by
  rcases hlater.eq_or_lt with rfl | hlt
  · rw [refill_lastRefill]
  · rw [refill_of_lt h hlt]

lemma Accepted.refill (now : ℕ) : (b.refill now).Accepted := by
  unfold TokenBucket.refill
  split_ifs <;> exact ⟨h.burst, h.window⟩

lemma Accepted.consume : b.consume.Accepted := by
  cases b
  exact ⟨h.burst, h.window⟩

lemma Accepted.attempt (now : ℕ) : (b.attempt now).Accepted := by
  unfold TokenBucket.attempt
  split_ifs
  · exact (h.refill now).consume
  · exact h.refill now

end

lemma lastRefill_consume (b : TokenBucket) : b.consume.lastRefill = b.lastRefill := by
  cases b
  rfl

lemma lastRefill_attempt (h : b.Accepted) (hlater : b.lastRefill ≤ now) :
    (b.attempt now).lastRefill = now := by
  unfold attempt
  split_ifs
  · rw [lastRefill_consume, lastRefill_refill h hlater]
  · exact lastRefill_refill h hlater

lemma gained_mk (b : TokenBucket) (tokens last elapsed : ℕ) :
    (mk b.burst b.window tokens last).gained elapsed = b.gained elapsed := by
  simp only [gained]

lemma capacity_mk (b : TokenBucket) (tokens last : ℕ) :
    (mk b.burst b.window tokens last).capacity = b.capacity := by
  simp only [capacity]

lemma min_min_add (tokens first second cap : ℕ) :
    min (min (tokens + first) cap + second) cap = min (tokens + (first + second)) cap := by
  omega

/-- **A refill in between that rounds nothing off leaves no trace.** -/
theorem refill_refill (h : b.Accepted) (hwhole : b.RefillsWhole t) (hfirst : b.lastRefill ≤ t)
    (hsecond : t ≤ now) (hclock : now < 2 ^ 64) : (b.refill t).refill now = b.refill now := by
  rcases hfirst.eq_or_lt with rfl | hfirst
  · rw [refill_lastRefill]
  rcases hsecond.eq_or_lt with rfl | hsecond
  · have hsame := refill_lastRefill (b.refill t)
    rwa [lastRefill_refill h hfirst.le] at hsame
  have hlast : (b.refill t).lastRefill < now := by rwa [lastRefill_refill h hfirst.le]
  rw [refill_of_lt (h.refill t) hlast, refill_of_lt h hfirst, refill_of_lt h (hfirst.trans hsecond)]
  have hgained : b.gained (now - b.lastRefill) =
      b.gained (t - b.lastRefill) + b.gained (now - t) := by
    rw [gained_eq h (by omega), gained_eq h (by omega), gained_eq h (by omega),
      ← Nat.add_div_of_dvd_right hwhole, ← Nat.add_mul, ← Nat.add_mul]
    congr 3
    omega
  simp only [hgained, ← min_min_add, gained_mk, capacity_mk]

/-! ## Schedules -/

lemma attempt_of_refused (h : b.grants now = false) : b.attempt now = b.refill now :=
  if_neg (ne_true_of_eq_false h)

lemma granted_subset (b : TokenBucket) (times : List ℕ) : b.granted times ⊆ times := by
  induction times generalizing b with
  | nil => exact List.Subset.refl _
  | cons now rest ih =>
    rw [granted]
    split_ifs
    · exact List.cons_subset_cons now (ih _)
    · exact List.subset_cons_of_subset now (ih _)

lemma granted_refill (h : b.Accepted) (hwhole : b.RefillsWhole t) (hfirst : b.lastRefill ≤ t)
    (hlater : ∀ s ∈ times, t ≤ s) (hclock : ∀ s ∈ times, s < 2 ^ 64) :
    (b.refill t).granted times = b.granted times := by
  cases times with
  | nil => rfl
  | cons now rest =>
    have hsame := refill_refill h hwhole hfirst (hlater now List.mem_cons_self)
      (hclock now List.mem_cons_self)
    have hgrants : (b.refill t).grants now = b.grants now := by rw [grants, hsame, grants]
    have hattempt : (b.refill t).attempt now = b.attempt now := by rw [attempt, hsame, attempt]
    rw [granted, granted, hgrants, hattempt]

lemma refill_after (h : b.Accepted) (hwhole : b.Unrounded times)
    (hsorted : (b.lastRefill :: times).Pairwise (· ≤ ·)) (hrefused : b.granted times = [])
    (hlater : ∀ s ∈ b.lastRefill :: times, s ≤ now) (hclock : now < 2 ^ 64) :
    (b.after times).refill now = b.refill now := by
  induction times generalizing b with
  | nil => rfl
  | cons t rest ih =>
    obtain ⟨hfirst, hrest⟩ := List.pairwise_cons.mp hsorted
    have hfirst : b.lastRefill ≤ t := hfirst t List.mem_cons_self
    obtain ⟨hlater, hrests⟩ := List.forall_mem_cons.mp (List.forall_mem_cons.mp hlater).2
    obtain ⟨hwhole, hwholes⟩ := hwhole
    cases hgrants : b.grants t with
    | true => simp [granted, hgrants] at hrefused
    | false =>
      have hattempt := attempt_of_refused hgrants
      rw [granted, hgrants, if_neg Bool.false_ne_true, hattempt] at hrefused
      rw [hattempt] at hwholes
      rw [after, List.foldl_cons, hattempt]
      refine (ih (h.refill t) hwholes ?_ hrefused ?_).trans
        (refill_refill h (hwhole hgrants) hfirst hlater hclock)
      · rwa [lastRefill_refill h hfirst]
      · rw [lastRefill_refill h hfirst]
        exact List.forall_mem_cons.mpr ⟨hlater, hrests⟩

lemma granted_granted (h : b.Accepted) (hwhole : b.Unrounded times)
    (hsorted : (b.lastRefill :: times).Pairwise (· ≤ ·)) (hclock : ∀ s ∈ times, s < 2 ^ 64) :
    b.granted (b.granted times) = b.granted times := by
  induction times generalizing b with
  | nil => rfl
  | cons now rest ih =>
    obtain ⟨hfirst, hrest⟩ := List.pairwise_cons.mp hsorted
    have hclock := (List.forall_mem_cons.mp hclock).2
    have hnow : b.lastRefill ≤ now := hfirst now List.mem_cons_self
    obtain ⟨hwhole, hwholes⟩ := hwhole
    have ih := ih (h.attempt now) hwholes (by rwa [lastRefill_attempt h hnow]) hclock
    cases hgrants : b.grants now with
    | true =>
      rw [granted, hgrants, if_pos rfl, granted, hgrants, if_pos rfl, ih]
    | false =>
      -- the refused attempt is taken out of the schedule that is left
      rw [attempt_of_refused hgrants] at ih
      have hsubset := granted_subset (b.refill now) rest
      rw [granted, hgrants, if_neg Bool.false_ne_true, attempt_of_refused hgrants,
        ← granted_refill h (hwhole hgrants) hnow
          (fun s hs => (List.pairwise_cons.mp hrest).1 s (hsubset hs))
          fun s hs => hclock s (hsubset hs)]
      exact ih

/-- **Where no refused attempt rounds, refused attempts are invisible**: the attempts of a schedule
that are granted are granted without the refused ones as well, and after `window / burst` a bucket
grants again, whatever it refused in between. -/
theorem refused_invisible (b : TokenBucket) (h : b.Accepted) (times : List ℕ)
    (hwhole : b.Unrounded times) (hsorted : (b.lastRefill :: times).Pairwise (· ≤ ·))
    (hclock : ∀ t ∈ times, t < 2 ^ 64) :
    b.granted (b.granted times) = b.granted times ∧
      ∀ now < 2 ^ 64, b.granted times = [] → (∀ t ∈ times, t ≤ now) →
        b.window ≤ (now - b.lastRefill) * b.burst.toNat → (b.after times).grants now = true := by
  refine ⟨granted_granted h hwhole hsorted hclock, fun now hnow hrefused hlater hwindow => ?_⟩
  have hpos : 0 < now - b.lastRefill := by
    by_contra hzero
    rw [Nat.eq_zero_of_not_pos hzero, Nat.zero_mul] at hwindow
    exact h.window (Nat.le_zero.mp hwindow)
  have hlast : ∀ s ∈ b.lastRefill :: times, s ≤ now :=
    List.forall_mem_cons.mpr ⟨by omega, hlater⟩
  rw [grants, refill_after h hwhole hsorted hrefused hlast hnow, refill_of_lt h (by omega)]
  refine decide_eq_true (le_min (le_trans ?_ (Nat.le_add_left _ _)) ?_)
  · rw [gained_eq h (by omega), Nat.le_div_iff_mul_le (Nat.pos_of_ne_zero h.window),
      Nat.mul_comm tokenScale]
    exact Nat.mul_le_mul_right _ hwindow
  · have hburst : b.burst.toNat ≠ 0 := fun hzero => h.burst (UInt32.toNat_inj.mp hzero)
    exact Nat.le_mul_of_pos_left _ (Nat.pos_of_ne_zero hburst)

/-- Under the default limits a refused attempt after 29296875 ns rounds nothing off. -/
theorem refused_invisible_default :
    (new 0 16 60000000000).granted (List.replicate 16 0 ++ [29296875, 3750000000]) =
        List.replicate 16 0 ++ [3750000000] ∧
      (new 0 16 60000000000).granted ((new 0 16 60000000000).granted
          (List.replicate 16 0 ++ [29296875, 3750000000])) =
        (new 0 16 60000000000).granted (List.replicate 16 0 ++ [29296875, 3750000000]) :=
  ⟨by decide +kernel, (refused_invisible (new 0 16 60000000000) ⟨by decide, by decide⟩
    (List.replicate 16 0 ++ [29296875, 3750000000]) (by decide +kernel) (by decide +kernel)
    (by decide +kernel)).1⟩

/-! ## Rounded off -/

/-- A bucket of the default limits, emptied at once, grants again after a sixteenth of its window,
and does not if it refused an attempt one nanosecond after it was emptied. -/
theorem refused_attempt_delays :
    let b := new 0 16 60000000000
    let emptied := List.replicate 16 0
    b.granted (emptied ++ [3750000000]) = emptied ++ [3750000000] ∧
      b.granted (emptied ++ [1, 3750000000]) = emptied := by
  decide +kernel

end TokenBucket

end Radiata.Identity
