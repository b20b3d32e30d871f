import Radiata.Session.Table

/-!
# The recovery schedule

An isolated node retries its members, waiting longer after each step, and stops once one of them
is reachable.
-/

namespace Radiata.Membership

structure RecoveryPolicy where
  fanOut : ℕ
  initialBackoff : ℕ
  maximumBackoff : ℕ
  maximum_lt : maximumBackoff < 2 ^ 64

inductive RecoveryState where
  | idle
  | recovering
  | connected
deriving DecidableEq

structure RecoveryStep where
  targets : List NodeId
  backoffSeconds : ℕ

structure RecoveryController where
  state : RecoveryState := .idle
  attempts : ℕ := 0
  lastAttemptAt : ℕ := 0
  scheduledBackoff : Option ℕ := none
  cursor : ℕ := 0

def saturatingAdd (a b : ℕ) : ℕ := min (a + b) (2 ^ 64 - 1)

def sampleJitter (base : ℕ) (word : Option UInt64) : ℕ :=
  let spread := base / 4
  if spread = 0 then base
  else match word with
    | none => base
    | some word => saturatingAdd (base - spread) (if 2 * spread = 2 ^ 64 - 1 then word.toNat
        else word.toNat * (2 * spread + 1) / 2 ^ 64)

namespace RecoveryController

variable (policy : RecoveryPolicy) (c : RecoveryController) (now : ℕ)

def observe (known reachable : Finset NodeId) : RecoveryController :=
  if reachable = ∅ then
    if known = ∅ then { c with state := .idle, scheduledBackoff := none }
    else if c.state = .recovering then c
    else { c with state := .recovering, attempts := 0, scheduledBackoff := none }
  else if c.state = .connected then c
  else { c with state := .connected, attempts := 0, scheduledBackoff := none }

def baseSeconds : ℕ :=
  min (min (policy.initialBackoff * 2 ^ min c.attempts 16) (2 ^ 64 - 1)) policy.maximumBackoff

def nextStep (candidates : Finset NodeId) (word : Option UInt64) :
    RecoveryStep × RecoveryController :=
  let ordered := candidates.sort (· ≤ ·)
  let take := min (max policy.fanOut 1) ordered.length
  let targets := (List.range take).filterMap fun offset =>
    ordered[(c.cursor % ordered.length + offset) % ordered.length]?
  let c := { c with
    attempts := saturatingAdd c.attempts 1
    cursor := if ordered = [] then c.cursor else (c.cursor + take) % 2 ^ 64 }
  let sampled := sampleJitter (c.baseSeconds policy) word
  (⟨targets, if saturatingAdd c.lastAttemptAt sampled ≤ now then 0 else sampled⟩,
    { c with lastAttemptAt := now, scheduledBackoff := some sampled })

def backoffSeconds : ℕ :=
  let scheduled := c.scheduledBackoff.getD (c.baseSeconds policy)
  if saturatingAdd c.lastAttemptAt scheduled ≤ now then 0 else scheduled

def due : Bool :=
  if c.state = .recovering then
    decide (saturatingAdd c.lastAttemptAt (c.backoffSeconds policy now) ≤ now)
  else false

def immediate : RecoveryController :=
  if c.state = .recovering then
    { c with attempts := 0, lastAttemptAt := now, scheduledBackoff := some 0 }
  else c

variable {policy c now}

lemma due_iff : c.due policy now = true ↔ c.state = .recovering ∧
    saturatingAdd c.lastAttemptAt (c.scheduledBackoff.getD (c.baseSeconds policy)) ≤ now := by
  unfold due
  split_ifs with hstate
  · refine decide_eq_true_iff.trans (Iff.trans ?_ (and_iff_right hstate).symm)
    rw [backoffSeconds]
    split_ifs with hdue
    · exact iff_of_true ((min_le_min_right _ (Nat.le_add_right _ _)).trans hdue) hdue
    · rfl
  · simp only [hstate, false_and]

lemma scheduledBackoff_nextStep {m : ℕ} (h : c.attempts = min m (2 ^ 64 - 1))
    (candidates : Finset NodeId) (word : Option UInt64) :
    (c.nextStep policy now candidates word).2.scheduledBackoff = some (sampleJitter
      (min (policy.initialBackoff * 2 ^ min (m + 1) 16) policy.maximumBackoff) word) := by
  have hexponent : min (saturatingAdd c.attempts 1) 16 = min (m + 1) 16 := by
    rw [h, saturatingAdd]
    omega
  simp only [nextStep, baseSeconds, hexponent]
  rw [min_assoc, min_eq_right (Nat.le_sub_one_of_lt policy.maximum_lt)]

end RecoveryController

lemma sampleJitter_mem (base : ℕ) (word : Option UInt64) (h : base < 2 ^ 64) :
    base - base / 4 ≤ sampleJitter base word ∧ sampleJitter base word ≤ base + base / 4 := by
  cases word with
  | none =>
    simp only [sampleJitter, ite_self]
    omega
  | some word =>
    have hoffset : word.toNat * (2 * (base / 4) + 1) / 2 ^ 64 ≤ 2 * (base / 4) :=
      Nat.le_of_lt_succ (Nat.div_lt_of_lt_mul
        (Nat.mul_lt_mul_of_pos_right word.toNat_lt (Nat.succ_pos _)))
    simp only [sampleJitter, saturatingAdd, if_neg (show 2 * (base / 4) ≠ 2 ^ 64 - 1 by omega)]
    split_ifs <;> omega

inductive RecoveryEvent where
  | observe (known reachable : Finset NodeId)
  | step (now : ℕ) (candidates : Finset NodeId) (word : Option UInt64)
  | immediate (now : ℕ)

/-- A controller beside its last observation, its steps and the wait its last step told. -/
structure WatchedRecovery extends RecoveryController where
  known : Finset NodeId := ∅
  reachable : Finset NodeId := ∅
  steps : ℕ := 0
  deadline : Option ℕ := none

namespace WatchedRecovery

open RecoveryController

variable (policy : RecoveryPolicy)

def next (w : WatchedRecovery) : RecoveryEvent → WatchedRecovery
  | .observe known reachable =>
    let c := w.observe known reachable
    -- the schedule restarts where another state than `idle` is entered
    if c.state = w.state ∨ c.state = .idle then
      ⟨c, known, reachable, w.steps, w.deadline⟩
    else ⟨c, known, reachable, 0, none⟩
  | .step now candidates word =>
    let c := (w.nextStep policy now candidates word).2
    ⟨c, w.known, w.reachable, w.steps + 1, c.scheduledBackoff.map (now + ·)⟩
  | .immediate now =>
    if w.state = .recovering then
      ⟨w.immediate now, w.known, w.reachable, 0, none⟩
    else w

structure Sound (w : WatchedRecovery) : Prop where
  state : w.state = .recovering ↔ w.known ≠ ∅ ∧ w.reachable = ∅
  attempts : w.attempts = min w.steps (2 ^ 64 - 1)
  deadline : ∀ d ∈ w.deadline, w.state = .recovering →
    ∃ wait ∈ w.scheduledBackoff, d = w.lastAttemptAt + wait

variable {policy} {w : WatchedRecovery}

lemma Sound.next (h : w.Sound) (event : RecoveryEvent) : (w.next policy event).Sound := by
  obtain ⟨⟨state, attempts, last, scheduled, cursor⟩, known, reachable, steps, deadline⟩ := w
  obtain ⟨hstate, hattempts, hdeadline⟩ := h
  cases event with
  | observe known reachable =>
    simp only [WatchedRecovery.next, RecoveryController.observe]
    split_ifs <;> constructor <;> simp_all
  | step now candidates word =>
    refine ⟨hstate, ?_, ?_⟩
    · simp only [WatchedRecovery.next, nextStep, saturatingAdd] at hattempts ⊢
      omega
    · rintro d ⟨⟩ -
      exact ⟨_, rfl, rfl⟩
  | immediate now =>
    simp only [WatchedRecovery.next, immediate]
    split_ifs <;> constructor <;> simp_all

/-- **The recovery schedule, after any events**: a step is due only while members are known and
none is reachable; its wait stays within a quarter of the capped doubling; an immediate command is
due at once; and no step is due before the time the last one told to wait for. -/
theorem recovery_schedule (policy : RecoveryPolicy) (events : List RecoveryEvent) (now : ℕ) :
    let w := events.foldl (next policy) {}
    (w.due policy now = true → w.state = .recovering) ∧
      (w.state = .recovering ↔ w.known ≠ ∅ ∧ w.reachable = ∅) ∧
      (∀ candidates word, ∃ wait ∈ (w.nextStep policy now candidates word).2.scheduledBackoff,
        let base := min (policy.initialBackoff * 2 ^ min (w.steps + 1) 16) policy.maximumBackoff
        base - base / 4 ≤ wait ∧ wait ≤ base + base / 4 ∧
          wait ≤ policy.maximumBackoff + policy.maximumBackoff / 4) ∧
      (w.state = .recovering → ∀ later, now ≤ later → (w.immediate now).due policy later = true) ∧
      ∀ deadline ∈ w.deadline, w.due policy now = true → min deadline (2 ^ 64 - 1) ≤ now := by
  intro w
  have hw : w.Sound := List.foldlRecOn events _ ⟨by decide, rfl, nofun⟩ fun _ h e _ => h.next e
  refine ⟨fun h => (due_iff.mp h).1, hw.state, fun candidates word => ?_,
    fun hstate later hlater => ?_, fun deadline hdeadline hdue => ?_⟩
  · obtain ⟨hlow, hhigh⟩ := sampleJitter_mem _ word ((min_le_right
      (policy.initialBackoff * 2 ^ min (w.steps + 1) 16) _).trans_lt policy.maximum_lt)
    exact ⟨_, scheduledBackoff_nextStep hw.attempts _ _, hlow, hhigh,
      hhigh.trans (Nat.add_le_add (min_le_right _ _) (Nat.div_le_div_right (min_le_right _ _)))⟩
  · rw [due_iff, immediate, if_pos hstate]
    exact ⟨hstate, (min_le_left _ _).trans hlater⟩
  · obtain ⟨hstate, hdue⟩ := due_iff.mp hdue
    obtain ⟨wait, hwait, rfl⟩ := hw.deadline deadline hdeadline hstate
    rw [hwait] at hdue
    exact hdue

/-- At the last second of the clock the sum saturates, and a step is due at once. -/
theorem due_before_deadline : ∃ (policy : RecoveryPolicy) (events : List RecoveryEvent) (now : ℕ),
    ∃ deadline ∈ (events.foldl (next policy) {}).deadline, now < deadline ∧
      (events.foldl (next policy) {}).due policy now = true :=
  ⟨⟨1, 1, 1, by decide⟩, [.observe {Session.firstNode} ∅, .step (2 ^ 64 - 1) ∅ none], 2 ^ 64 - 1,
    2 ^ 64, by decide +kernel, by decide, by decide +kernel⟩

end WatchedRecovery

end Radiata.Membership
