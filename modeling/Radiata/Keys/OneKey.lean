import Radiata.Keys.FileCustody
import Radiata.Lib.Runs

/-!
# One key per create operation

A creator that finds the key file empty waits, and then removes the file as a dead creator's.
Nothing tells it that the creator is dead.  A slow creator goes on writing to the file it
opened, which no longer has a name, and reports its own key beside the one that took the name.

Where every removal finds no file, or an empty one that no running call is filling, there is
one key: whatever was ever reported present is in the key file, durable, and every later call
answers with it.
-/

namespace Radiata.Keys

open Lib Identity
open Function (update update_of_ne update_self)
open False (elim)

variable {publicKey : Seed → PublicKey} {d d' : Disk} {pc pc' : Pc} {c : Choice} {i : ℕ}
  {secret : Seed} {key : PublicKey}

/-! ## What the directory holds -/

namespace Disk

def Complete (d : Disk) : Prop := ∀ i, 32 ≤ (d.files i).length → d.key = some i

def Holds (d : Disk) (i : ℕ) (secret : Seed) : Prop := d.key = some i ∧ d.files i = secret.1

def Durable (d : Disk) (secret : Seed) : Prop := ∃ i, d.Holds i secret ∧ d.synced i = true

def Committed (d : Disk) (secret : Seed) : Prop := d.Durable secret ∧ d.unsynced = []

def Keeps (publicKey : Seed → PublicKey) (d : Disk) (key : PublicKey) : Prop :=
  ∃ secret, publicKey secret = key ∧ d.Committed secret

structure Quiet (d d' : Disk) : Prop where
  key : d'.key = d.key
  files : d'.files = d.files
  synced : ∀ i, d.synced i = true → d'.synced i = true
  unsynced : d.unsynced = [] → d'.unsynced = []

section

variable (d)

lemma Quiet.refl : d.Quiet d := ⟨rfl, rfl, fun _ h => h, fun h => h⟩

lemma quiet_setIntent (intent : Option IntentMarker) :
    d.Quiet (d.setIntent intent) := ⟨rfl, rfl, fun _ h => h, fun h => h⟩

lemma quiet_barrier : d.Quiet d.barrier := ⟨rfl, rfl, fun _ h => h, fun _ => rfl⟩

lemma synced_sync_self (i : ℕ) : (d.sync i).synced i = true :=
  update_self ..

lemma quiet_sync (i : ℕ) : d.Quiet (d.sync i) where
  key := rfl
  files := rfl
  unsynced h := h
  synced j h := by
    by_cases hj : j = i
    · rw [hj, synced_sync_self]
    · exact (update_of_ne hj ..).trans h

end

lemma Holds.quiet (h : d.Holds i secret) (hq : d.Quiet d') : d'.Holds i secret :=
  ⟨hq.key.trans h.1, (congrFun hq.files i).trans h.2⟩

lemma Durable.quiet (h : d.Durable secret) (hq : d.Quiet d') : d'.Durable secret :=
  let ⟨i, hholds, hsynced⟩ := h
  ⟨i, hholds.quiet hq, hq.synced i hsynced⟩

lemma Committed.quiet (h : d.Committed secret) (hq : d.Quiet d') : d'.Committed secret :=
  ⟨h.1.quiet hq, hq.unsynced h.2⟩

lemma Durable.barrier (h : d.Durable secret) : d.barrier.Committed secret :=
  ⟨h.quiet d.quiet_barrier, rfl⟩

lemma Holds.sync (h : d.Holds i secret) : (d.sync i).Durable secret :=
  ⟨i, h.quiet (d.quiet_sync i), d.synced_sync_self i⟩

lemma Holds.unique {j : ℕ} {other : Seed} (h : d.Holds i secret) (h' : d.Holds j other) :
    secret = other := by
  obtain rfl := Option.some.inj (h.1.symm.trans h'.1)
  exact Subtype.ext (h.2.symm.trans h'.2)

lemma Keeps.unique {key' : PublicKey} (h : d.Keeps publicKey key)
    (h' : d.Keeps publicKey key') : key = key' := by
  obtain ⟨secret, rfl, ⟨i, hholds, -⟩, -⟩ := h
  obtain ⟨other, rfl, ⟨j, hholds', -⟩, -⟩ := h'
  rw [hholds.unique hholds']

/-! ## What a step does to the directory -/

inductive Change (d : Disk) : Disk → Prop where
  | quiet {d' : Disk} : d.Quiet d' → Change d d'
  | create : d.key = none → Change d d.create
  | write {i w n : ℕ} {secret : Seed} : d.key = some i → d.files i = secret.1.take w → w < 32 →
      Change d (d.write i w ((secret.1.drop w).take n))
  | remove {i : ℕ} : d.key = some i → d.files i = [] →
      Change d { d with key := none, unsynced := d.key :: d.unsynced }

lemma files_write {w n : ℕ} (hfile : d.files i = secret.1.take w) (hw : w < 32) :
    (d.write i w ((secret.1.drop w).take n)).files i = secret.1.take (w + n) := by
  have hlength : (secret.1.take w).length = w := by
    rw [List.length_take, secret.2]
    omega
  show update d.files i _ i = _
  rw [update_self, hfile, overwrite, hlength, Nat.sub_self, List.replicate_zero,
    List.append_nil, List.take_of_length_le hlength.le,
    List.drop_eq_nil_of_le (hlength.le.trans (Nat.le_add_right _ _)), List.append_nil,
    ← List.take_add]

lemma files_write_of_ne {j w : ℕ} {bytes : List UInt8} (h : j ≠ i) :
    (d.write i w bytes).files j = d.files j := update_of_ne h ..

section

variable (hc : d.Change d')
include hc

lemma Change.quiet_of_holds (h : d.Holds i secret) : d.Quiet d' := by
  have hfull : (d.files i).length = 32 := by rw [h.2, secret.2]
  cases hc with
  | quiet hq => exact hq
  | create hkey => cases hkey.symm.trans h.1
  | write hkey hfile hw =>
    obtain rfl := Option.some.inj (hkey.symm.trans h.1)
    rw [hfile, List.length_take] at hfull
    omega
  | remove hkey hempty =>
    obtain rfl := Option.some.inj (hkey.symm.trans h.1)
    rw [hempty] at hfull
    cases hfull

lemma Change.committed (h : d.Committed secret) : d'.Committed secret :=
  let ⟨⟨_, hholds, _⟩, _⟩ := h
  h.quiet (hc.quiet_of_holds hholds)

lemma Change.length_le (i : ℕ) (h : (d.files i).length ≤ 32) : (d'.files i).length ≤ 32 := by
  cases hc with
  | quiet hq => rwa [hq.files]
  | create hkey =>
    by_cases hi : i = d.next
    · simp [Disk.create, hi]
    · rwa [show d.create.files i = d.files i from update_of_ne hi ..]
  | @write j w n secret hkey hfile hw =>
    by_cases hi : i = j
    · subst hi
      rw [files_write hfile hw, List.length_take, secret.2]
      exact min_le_right _ _
    · rwa [files_write_of_ne hi]
  | remove hkey hempty => exact h

lemma Change.named_length_le (h : ∀ i, d.key = some i → (d.files i).length ≤ 32) :
    ∀ i, d'.key = some i → (d'.files i).length ≤ 32 := by
  intro i hi
  cases hc with
  | quiet hq => exact (congrArg List.length (congrFun hq.files i)).trans_le (h i (hq.key ▸ hi))
  | create hkey =>
    obtain rfl := Option.some.inj hi
    simp [Disk.create]
  | write hkey hfile hw => exact (Change.write hkey hfile hw).length_le i (h i hi)
  | remove hkey hempty => cases hi

lemma Change.complete (h : d.Complete) : d'.Complete := by
  intro i hi
  cases hc with
  | quiet hq =>
    rw [hq.files] at hi
    rw [hq.key, h i hi]
  | create hkey =>
    by_cases hnext : i = d.next
    · rw [hnext]
      rfl
    · rw [show d.create.files i = d.files i from update_of_ne hnext ..] at hi
      cases hkey.symm.trans (h i hi)
  | @write j w n secret hkey hfile hw =>
    by_cases hij : i = j
    · rw [hij]
      exact hkey
    · rw [files_write_of_ne hij] at hi
      exact h i hi
  | remove hkey hempty =>
    obtain rfl := Option.some.inj (hkey.symm.trans (h i hi))
    rw [show d.files _ = [] from hempty] at hi
    cases hi

end

lemma complete_boot (contents intent : Option (List UInt8)) :
    (boot contents intent).Complete := by
  intro i hi
  cases contents with
  | none => simp [boot] at hi
  | some bytes =>
    by_cases hzero : i = 0
    · rw [hzero]
      rfl
    · simp [boot, hzero] at hi

lemma Committed.boot {contents : Option (List UInt8)} (h : d.Committed secret)
    (hleft : d.MayLeave contents) (intent : Option (List UInt8)) :
    (boot contents intent).Committed secret := by
  obtain ⟨⟨i, ⟨hkey, hfile⟩, hsynced⟩, hunsynced⟩ := h
  obtain ⟨entry, hentry, -, hcontents⟩ := hleft
  rw [hunsynced, List.mem_singleton, hkey] at hentry
  obtain rfl := hcontents i (hentry ▸ rfl) hsynced
  exact ⟨⟨0, ⟨rfl, hfile⟩, rfl⟩, rfl⟩

end Disk

/-! ## What a call knows -/

def Pc.IsFilling : Pc → Prop
  | .filling _ _ _ => True
  | _ => False

def Pc.Sound (d : Disk) : Pc → Prop
  | .opening _ => ∀ i, d.key = some i → (d.files i).length ≤ 32
  | .reading _ i => (d.files i).length ≤ 32
  | .filling i secret written =>
    d.key = some i ∧ d.files i = secret.1.take written ∧ written < 32
  | .syncKey i secret | .sealSync i secret => d.Holds i secret
  | .sealOpen _ secret => ∃ i, d.Holds i secret
  | .wonBarrier secret | .sealBarrier secret => d.Durable secret
  | .wonDiscard secret | .wonLast secret | .sealIntent secret | .sealDiscard secret
  | .sealLast secret => d.Committed secret
  | _ => True

def Pc.OnTrack (d : Disk) : Pc → Prop
  | .reading _ i => d.key = some i
  | .stat _ | .opening _ | .sealOpen _ _ | .sealSync _ _ | .sealBarrier _ | .sealIntent _
  | .sealDiscard _ | .sealLast _ => True
  | _ => False

def Pc.rank : Pc → ℕ
  | .stat _ => 9
  | .opening _ => 8
  | .reading _ _ => 7
  | .sealOpen _ _ => 6
  | .sealSync _ _ => 5
  | .sealBarrier _ => 4
  | .sealIntent _ => 3
  | .sealDiscard _ => 2
  | .sealLast _ => 1
  | _ => 0

lemma Pc.Sound.quiet (h : pc.Sound d) (hq : d.Quiet d') : pc.Sound d' := by
  cases pc with
  | opening goal =>
    intro i hi
    rw [hq.files]
    exact h i (hq.key ▸ hi)
  | reading goal i => exact (congrArg List.length (congrFun hq.files i)).trans_le h
  | filling i secret written =>
    exact ⟨hq.key.trans h.1, (congrFun hq.files i).trans h.2.1, h.2.2⟩
  | syncKey i secret | sealSync i secret => exact Disk.Holds.quiet h hq
  | sealOpen context secret => exact h.imp fun _ hholds => hholds.quiet hq
  | wonBarrier secret | sealBarrier secret => exact Disk.Durable.quiet h hq
  | wonDiscard secret | wonLast secret | sealIntent secret | sealDiscard secret | sealLast secret =>
    exact Disk.Committed.quiet h hq
  | _ => trivial

/-- What a call knows outlives the steps of the others, as long as nobody else touches the file
it is filling. -/
theorem Pc.Sound.change (h : pc.Sound d) (hc : d.Change d')
    (hfilling : pc.IsFilling → d.Quiet d') : pc.Sound d' := by
  have hcommitted {secret : Seed} (hk : d.Committed secret) : d.Quiet d' :=
    let ⟨⟨_, hholds, _⟩, _⟩ := hk
    hc.quiet_of_holds hholds
  have hdurable {secret : Seed} (hk : d.Durable secret) : d.Quiet d' :=
    let ⟨_, hholds, _⟩ := hk
    hc.quiet_of_holds hholds
  cases pc with
  | opening goal => exact hc.named_length_le h
  | reading goal i => exact hc.length_le i h
  | filling i secret written => exact h.quiet (hfilling trivial)
  | syncKey i secret | sealSync i secret => exact h.quiet (hc.quiet_of_holds h)
  | sealOpen context secret => exact h.quiet (hc.quiet_of_holds h.choose_spec)
  | wonBarrier secret | sealBarrier secret => exact h.quiet (hdurable h)
  | wonDiscard secret | wonLast secret | sealIntent secret | sealDiscard secret | sealLast secret =>
    exact h.quiet (hcommitted h)
  | _ => trivial

lemma Pc.OnTrack.quiet (h : pc.OnTrack d) (hq : d.Quiet d') : pc.OnTrack d' := by
  cases pc with
  | reading goal i => exact hq.key.trans h
  | _ => exact h

/-! ## One step of a call -/

variable {goal : Goal} {expired : Bool} {artifact : LoadedArtifact} {s : Custody}

lemma Goal.settle_next (hread : ∀ secret, artifact = .complete secret → ∃ i, d.Holds i secret)
    (h : goal.settle publicKey expired artifact = .next pc') : pc'.Sound d ∧ ¬ pc'.IsFilling := by
  cases goal <;> cases artifact <;> simp only [Goal.settle, Goal.fail] at h <;>
    (try split_ifs at h) <;> cases h <;>
    first
    | exact ⟨trivial, not_false⟩
    | exact ⟨hread _ rfl, not_false⟩

lemma Goal.settle_ne_present :
    goal.settle publicKey expired artifact ≠ .answer (.created (.ok (.present key))) := by
  intro h
  cases goal <;> cases artifact <;> simp only [Goal.settle, Goal.fail] at h <;>
    (try split_ifs at h) <;> cases h

lemma Goal.settle_complete (publicKey : Seed → PublicKey) (goal : Goal) (expired : Bool)
    (secret : Seed) :
    (∃ context, goal.settle publicKey expired (.complete secret) =
      .next (.sealOpen context secret)) ∨
    goal.settle publicKey expired (.complete secret) =
      .answer (.loaded (.ok (publicKey secret))) := by
  cases goal with
  | create restarts | fill restarts | reconcile => exact .inl ⟨_, rfl⟩
  | publicKey | sign => exact .inr rfl

lemma Goal.fail_ne_present {kind : ErrorKind} :
    goal.fail kind ≠ .answer (.created (.ok (.present key))) := by
  cases goal <;> exact nofun

lemma Goal.fail_ne_next {kind : ErrorKind} : goal.fail kind ≠ .next pc' := by
  cases goal <;> exact nofun

lemma act_quiet (hmint : ∀ restarts, pc = .mint restarts → d.key ≠ none)
    (hfilling : ¬ pc.IsFilling) (htakeover : ∀ restarts, pc ≠ .takeover restarts) :
    d.Quiet (act publicKey c d pc).1 := by
  cases pc with
  | stat goal =>
    simp only [act]
    split
    · exact .refl d
    · split_ifs <;> exact .refl d
  | opening goal | sealOpen context secret =>
    simp only [act]
    split <;> exact .refl d
  | reading goal i | sealIntent secret =>
    simp only [act]
    split_ifs <;> exact .refl d
  | clearIntent restarts => exact d.quiet_setIntent none
  | markIntent restarts => exact d.quiet_setIntent (some .mint)
  | markBarrier restarts | wonBarrier secret | wonLast secret | takeoverBarrier restarts
  | sealBarrier secret | sealLast secret => exact d.quiet_barrier
  | mint restarts =>
    simp only [act]
    split
    · next hkey => exact absurd hkey (hmint restarts rfl)
    · exact .refl d
  | filling i secret written => exact absurd trivial hfilling
  | syncKey i secret | sealSync i secret => exact d.quiet_sync i
  | wonDiscard secret | sealDiscard secret =>
    simp only [act]
    split_ifs
    · exact d.quiet_setIntent none
    · exact .refl d
  | takeover restarts => exact absurd rfl (htakeover restarts)

section

variable (hsound : pc.Sound d)
include hsound

lemma act_change
    (hempty : ∀ restarts, pc = .takeover restarts → ∀ i, d.key = some i → d.files i = []) :
    d.Change (act publicKey c d pc).1 := by
  cases pc with
  | mint restarts =>
    cases hkey : d.key with
    | none =>
      simp only [act, hkey]
      exact .create hkey
    | some i =>
      refine .quiet (act_quiet (fun _ _ => ?_) not_false fun _ => nofun)
      rw [hkey]
      exact Option.some_ne_none i
  | filling i secret written => exact .write hsound.1 hsound.2.1 hsound.2.2
  | takeover restarts =>
    cases hkey : d.key with
    | none =>
      simp only [act, Disk.removeKey, hkey]
      exact .quiet (.refl d)
    | some i =>
      have hfile := hempty restarts rfl i hkey
      have hremove := Disk.Change.remove hkey hfile
      simpa only [act, Disk.removeKey, hkey] using hremove
  | _ => exact .quiet (act_quiet (fun _ => nofun) not_false fun _ => nofun)

/-- Where a call goes on, it knows what its new place says; and it fills a file only if it did
before, or took a free name. -/
theorem act_next (hcomplete : d.Complete) (h : act publicKey c d pc = (d', .next pc')) :
    pc'.Sound d' ∧ (pc'.IsFilling → pc.IsFilling ∨ d.key = none) := by
  have hsettled {goal : Goal} {artifact : LoadedArtifact}
      (hread : ∀ secret, artifact = .complete secret → ∃ i, d.Holds i secret)
      (h : (d, goal.settle publicKey c.expired artifact) = (d', .next pc')) :
      pc'.Sound d' ∧ (pc'.IsFilling → pc.IsFilling ∨ d.key = none) := by
    obtain ⟨rfl, hnext⟩ := Prod.mk.inj h
    have hplace := Goal.settle_next hread hnext
    exact ⟨hplace.1, fun hf => absurd hf hplace.2⟩
  cases pc with
  | stat goal =>
    simp only [act] at h
    split at h
    · exact hsettled (by rintro _ ⟨⟩) h
    · next i hkey =>
      split_ifs at h with hzero hfull
      · exact hsettled (by rintro _ ⟨⟩) h
      · exact hsettled (by rintro _ ⟨⟩) h
      · cases h
        refine ⟨fun j hj => ?_, elim⟩
        obtain rfl := Option.some.inj (hkey.symm.trans hj)
        exact (not_not.mp hfull).le
  | opening goal =>
    simp only [act] at h
    split at h
    · exact absurd (Prod.mk.inj h).2 Goal.fail_ne_next
    · next i hkey =>
      cases h
      exact ⟨hsound i hkey, elim⟩
  | reading goal i =>
    simp only [act] at h
    split_ifs at h with hfull
    · refine hsettled (fun secret hread => ⟨i, hcomplete i hfull, ?_⟩) h
      rw [← LoadedArtifact.complete.inj hread]
      exact (List.take_of_length_le hsound).symm
    · exact absurd (Prod.mk.inj h).2 Goal.fail_ne_next
  | mint restarts =>
    simp only [act] at h
    split at h
    · next hkey =>
      cases h
      exact ⟨⟨rfl, update_self .., by decide⟩, fun _ => .inr hkey⟩
    · cases h
      exact ⟨trivial, elim⟩
  | filling i secret written =>
    obtain ⟨hkey, hfile, hw⟩ := hsound
    have hlength : ((secret.1.drop written).take c.bytes).length =
        min c.bytes (32 - written) := by
      rw [List.length_take, List.length_drop, secret.2]
    have hwritten := Disk.files_write (n := c.bytes) hfile hw
    have htake : secret.1.take (written + c.bytes) =
        secret.1.take (written + ((secret.1.drop written).take c.bytes).length) := by
      rw [hlength, List.take_eq_take_iff, secret.2]
      omega
    obtain ⟨rfl, hnext⟩ := Prod.mk.inj h
    split_ifs at hnext with hfull
    · cases hnext
      refine ⟨⟨hkey, ?_⟩, elim⟩
      rw [hwritten, htake, hfull]
      exact List.take_of_length_le secret.2.le
    · cases hnext
      refine ⟨⟨hkey, hwritten.trans htake, ?_⟩, fun _ => .inl trivial⟩
      omega
  | syncKey i secret | sealSync i secret =>
    cases h
    exact ⟨hsound.sync, elim⟩
  | wonBarrier secret | sealBarrier secret =>
    cases h
    exact ⟨Disk.Durable.barrier hsound, elim⟩
  | wonDiscard secret | sealDiscard secret =>
    simp only [act] at h
    split_ifs at h <;> cases h
    exact ⟨Disk.Committed.quiet hsound (d.quiet_setIntent none), elim⟩
  | sealOpen context secret =>
    simp only [act] at h
    split at h
    · cases h
    · next i hkey =>
      cases h
      obtain ⟨j, hholds⟩ := hsound
      obtain rfl := Option.some.inj (hkey.symm.trans hholds.1)
      exact ⟨hholds, elim⟩
  | sealIntent secret =>
    simp only [act] at h
    split_ifs at h <;> cases h
    exact ⟨hsound, elim⟩
  | wonLast secret | sealLast secret => cases h
  | _ =>
    cases h
    exact ⟨trivial, elim⟩

lemma act_present (h : act publicKey c d pc = (d', .answer (.created (.ok (.present key))))) :
    d'.Keeps publicKey key := by
  cases pc with
  | stat goal =>
    simp only [act] at h
    split at h
    · exact absurd (Prod.mk.inj h).2 Goal.settle_ne_present
    · split_ifs at h
      · exact absurd (Prod.mk.inj h).2 Goal.settle_ne_present
      · exact absurd (Prod.mk.inj h).2 Goal.settle_ne_present
      · cases h
  | opening goal =>
    simp only [act] at h
    split at h
    · exact absurd (Prod.mk.inj h).2 Goal.fail_ne_present
    · cases h
  | reading goal i =>
    simp only [act] at h
    split_ifs at h
    · exact absurd (Prod.mk.inj h).2 Goal.settle_ne_present
    · exact absurd (Prod.mk.inj h).2 Goal.fail_ne_present
  | mint restarts | sealOpen context secret =>
    simp only [act] at h
    split at h <;> cases h
  | filling i secret written =>
    have hnext := (Prod.mk.inj h).2
    split_ifs at hnext
  | wonDiscard secret | sealIntent secret | sealDiscard secret =>
    simp only [act] at h
    split_ifs at h <;> cases h
    exact ⟨secret, rfl, hsound⟩
  | wonLast secret | sealLast secret =>
    cases h
    exact ⟨secret, rfl, Disk.Committed.quiet hsound d.quiet_barrier⟩
  | _ => cases h

end

inductive Delivers (key : PublicKey) (d : Disk) (rank : ℕ) : Outcome → Prop where
  | next {pc : Pc} : pc.OnTrack d → pc.rank < rank → Delivers key d rank (.next pc)
  | present : Delivers key d rank (.answer (.created (.ok (.present key))))
  | loaded : Delivers key d rank (.answer (.loaded (.ok key)))

lemma act_onTrack (hcommitted : d.Committed secret) (hsound : pc.Sound d)
    (htrack : pc.OnTrack d) :
    Delivers (publicKey secret) (act publicKey c d pc).1 pc.rank (act publicKey c d pc).2 := by
  obtain ⟨⟨i, hholds, -⟩, -⟩ := hcommitted
  obtain ⟨hkey, hfile⟩ := id hholds
  have hfull : (d.files i).length = 32 := by rw [hfile, secret.2]
  cases pc with
  | stat goal =>
    simp only [act, hkey, hfull]
    exact .next trivial (Nat.lt_succ_self _)
  | opening goal =>
    simp only [act, hkey]
    exact .next hkey (Nat.lt_succ_self _)
  | reading goal j =>
    obtain rfl := Option.some.inj (hkey.symm.trans htrack)
    have hseed (hle : 32 ≤ (d.files i).length) :
        (⟨(d.files i).take 32, List.length_take_of_le hle⟩ : Seed) = secret :=
      Subtype.ext ((List.take_of_length_le hfull.le).trans hfile)
    simp only [act, dif_pos hfull.ge]
    rw [hseed hfull.ge]
    rcases goal.settle_complete publicKey c.expired secret with ⟨context, hgoal⟩ | hgoal
    · rw [hgoal]
      exact .next trivial (Nat.lt_succ_self _)
    · rw [hgoal]
      exact .loaded
  | sealOpen context other =>
    simp only [act, hkey]
    exact .next trivial (Nat.lt_succ_self _)
  | sealSync j other | sealBarrier other => exact .next trivial (Nat.lt_succ_self _)
  | sealIntent other | sealDiscard other =>
    obtain ⟨⟨j, hother, -⟩, -⟩ := hsound
    obtain rfl := hholds.unique hother
    simp only [act]
    split_ifs
    · exact .next trivial (Nat.lt_succ_self _)
    · exact .present
  | sealLast other =>
    obtain ⟨⟨j, hother, -⟩, -⟩ := hsound
    obtain rfl := hholds.unique hother
    exact .present
  | _ => exact htrack.elim

/-! ## Runs -/

def Pc.Fills (pc : Pc) (i : ℕ) : Prop := ∃ secret written, pc = .filling i secret written

namespace Custody

section

variable (s : Custody)

def Reported (key : PublicKey) : Prop :=
  ∃ promised, (promised, Answer.created (.ok (.present key))) ∈ s.answers

def Abandoned : Prop :=
  ∀ i, s.disk.key = some i → s.disk.files i = [] ∧
    ∀ id task, s.tasks id = some task → ¬ task.pc.Fills i

def TakesOver (action : Action) : Prop :=
  ∃ id choice task restarts, action = .act id choice ∧ s.tasks id = some task ∧
    task.pc = .takeover restarts

def Careful (action : Action) : Prop := s.TakesOver action → s.Abandoned

end

def KeepsSeed (s s' : Custody) : Prop :=
  ∀ i secret, s.disk.Holds i secret → s'.disk.Holds i secret

def run (publicKey : Seed → PublicKey) (s : Custody) (actions : List Action) : Custody :=
  actions.foldl (step publicKey) s

def CarefulRun (publicKey : Seed → PublicKey) (s : Custody) (actions : List Action) : Prop :=
  ∀ before action after, actions = before ++ action :: after →
    (run publicKey s before).Careful action

structure Invariant (publicKey : Seed → PublicKey) (s : Custody) : Prop where
  complete : s.disk.Complete
  sound : ∀ id task, s.tasks id = some task → task.pc.Sound s.disk
  alone : ∀ id id' task task', s.tasks id = some task → s.tasks id' = some task' →
    task.pc.IsFilling → task'.pc.IsFilling → id = id'
  reported : ∀ key, s.Reported key → s.disk.Keeps publicKey key
  promised : ∀ id task key, s.tasks id = some task → task.promised = some key →
    s.disk.Keeps publicKey key ∧ task.pc.OnTrack s.disk
  answered : ∀ key answer, (some key, answer) ∈ s.answers →
    answer = .created (.ok (.present key)) ∨ answer = .loaded (.ok key)

lemma invariant_boot (contents intent : Option (List UInt8)) :
    (boot contents intent).Invariant publicKey where
  complete := Disk.complete_boot contents intent
  sound _ _ h := nomatch h
  alone _ _ _ _ h := nomatch h
  reported _ h := nomatch h
  promised _ _ _ h := nomatch h
  answered _ _ h := nomatch h

lemma reported_of_eq_some (h : s.reported = some key) : s.Reported key := by
  obtain ⟨⟨promised, answer⟩, hmem, hanswer⟩ := List.exists_of_findSome?_eq_some h
  split at hanswer
  · next heq =>
    obtain ⟨-, rfl⟩ := Prod.mk.inj heq
    obtain rfl := Option.some.inj hanswer
    exact ⟨promised, hmem⟩
  · cases hanswer

variable {id : ℕ} {task : Task}

lemma of_update {tasks : ℕ → Option Task} {j : ℕ} {entry : Option Task}
    (h : update tasks id entry j = some task) :
    j = id ∧ entry = some task ∨ j ≠ id ∧ tasks j = some task := by
  by_cases hj : j = id
  · subst hj
    rw [update_self] at h
    exact .inl ⟨rfl, h⟩
  · rw [update_of_ne hj] at h
    exact .inr ⟨hj, h⟩

section

variable (hs : s.Invariant publicKey)
include hs

lemma Invariant.start (id : ℕ) (call : Call) :
    (s.step publicKey (.start id call)).Invariant publicKey := by
  cases hid : s.tasks id with
  | some task => simpa only [step, hid] using hs
  | none =>
    simp only [step, hid]
    refine { hs with sound := ?_, alone := ?_, promised := ?_ }
    · intro j task hj
      rcases of_update hj with ⟨-, hnew⟩ | ⟨-, hold⟩
      · cases hnew
        trivial
      · exact hs.sound j task hold
    · intro j j' task task' hj hj' hf hf'
      rcases of_update hj with ⟨-, hnew⟩ | ⟨-, hold⟩
      · cases hnew
        exact hf.elim
      · rcases of_update hj' with ⟨-, hnew⟩ | ⟨-, hold'⟩
        · cases hnew
          exact hf'.elim
        · exact hs.alone j j' task task' hold hold' hf hf'
    · intro j task key hj hkey
      rcases of_update hj with ⟨-, hnew⟩ | ⟨-, hold⟩
      · cases hnew
        exact ⟨hs.reported key (reported_of_eq_some hkey), trivial⟩
      · exact hs.promised j task key hold hkey

lemma Invariant.crash (id : ℕ) : (s.step publicKey (.crash id)).Invariant publicKey := by
  have hold {j : ℕ} {task : Task} (h : update s.tasks id none j = some task) :
      s.tasks j = some task := by
    rcases of_update h with ⟨-, hnew⟩ | ⟨-, hold⟩
    · cases hnew
    · exact hold
  exact { hs with
    sound := fun j task hj => hs.sound j task (hold hj)
    alone := fun j j' task task' hj hj' => hs.alone j j' task task' (hold hj) (hold hj')
    promised := fun j task key hj => hs.promised j task key (hold hj) }

lemma Invariant.losePower (contents intent : Option (List UInt8)) :
    (s.step publicKey (.losePower contents intent)).Invariant publicKey := by
  simp only [step]
  split_ifs with hleft
  · refine { hs with
      complete := Disk.complete_boot contents intent
      sound := fun _ _ h => nomatch h
      alone := fun _ _ _ _ h => nomatch h
      promised := fun _ _ _ h => nomatch h
      reported := fun key hkey => ?_ }
    obtain ⟨secret, heq, hcommitted⟩ := hs.reported key hkey
    exact ⟨secret, heq, hcommitted.boot hleft intent⟩
  · exact hs

end

section Act

variable {id : ℕ} {task : Task}

structure Leaves (publicKey : Seed → PublicKey) (s : Custody) (id : ℕ) (disk : Disk) : Prop where
  change : s.disk.Change disk
  sound : ∀ j other, j ≠ id → s.tasks j = some other → other.pc.Sound disk
  keeps : ∀ key, s.disk.Keeps publicKey key → disk.Keeps publicKey key
  onTrack : ∀ pc : Pc, ∀ key, s.disk.Keeps publicKey key → pc.OnTrack s.disk → pc.OnTrack disk

lemma Invariant.leaves (hs : s.Invariant publicKey) (hid : s.tasks id = some task)
    (hcareful : s.Careful (.act id c)) :
    s.Leaves publicKey id (act publicKey c s.disk task.pc).1 := by
  have habandoned (restarts : ℕ) (hpc : task.pc = .takeover restarts) : s.Abandoned :=
    hcareful ⟨id, c, task, restarts, rfl, hid, hpc⟩
  have hchange : s.disk.Change (act publicKey c s.disk task.pc).1 :=
    act_change (hs.sound id task hid) fun restarts hpc i hi => (habandoned restarts hpc i hi).1
  have hquiet {key : PublicKey} (h : s.disk.Keeps publicKey key) :
      s.disk.Quiet (act publicKey c s.disk task.pc).1 :=
    let ⟨_, _, ⟨_, hholds, _⟩, _⟩ := h
    hchange.quiet_of_holds hholds
  refine ⟨hchange, fun j other hj hother => ?_, fun key h => ?_, fun pc key h htrack =>
    htrack.quiet (hquiet h)⟩
  · refine (hs.sound j other hother).change hchange fun hfilling => ?_
    -- another call fills the file under the name: this one neither fills nor removes it
    obtain ⟨i, hfills, hkey⟩ : ∃ i, other.pc.Fills i ∧ s.disk.key = some i := by
      have hsound := hs.sound j other hother
      cases hpc : other.pc with
      | filling i secret written =>
        rw [hpc] at hsound
        exact ⟨i, ⟨secret, written, rfl⟩, hsound.1⟩
      | _ =>
        rw [hpc] at hfilling
        exact hfilling.elim
    refine act_quiet (fun _ _ => ?_) (fun hself => ?_) (fun restarts hpc => ?_)
    · rw [hkey]
      exact Option.some_ne_none i
    · exact hj (hs.alone j id other task hother hid hfilling hself)
    · exact (habandoned restarts hpc i hkey).2 j other hother hfills
  · obtain ⟨secret, heq, hcommitted⟩ := h
    exact ⟨secret, heq, hchange.committed hcommitted⟩

lemma Invariant.act (hs : s.Invariant publicKey) (hcareful : s.Careful (.act id c)) :
    (s.step publicKey (.act id c)).Invariant publicKey := by
  cases hid : s.tasks id with
  | none => simpa only [step, hid] using hs
  | some task =>
    have hleaves := hs.leaves hid hcareful
    have hself := hs.sound id task hid
    have hdelivers (key : PublicKey) (hkey : task.promised = some key) :
        Delivers key (Keys.act publicKey c s.disk task.pc).1 task.pc.rank
          (Keys.act publicKey c s.disk task.pc).2 := by
      obtain ⟨⟨secret, rfl, hcommitted⟩, htrack⟩ := hs.promised id task key hid hkey
      exact act_onTrack hcommitted hself htrack
    simp only [step, hid]
    generalize hact : Keys.act publicKey c s.disk task.pc = result at hleaves hdelivers
    obtain ⟨disk, outcome⟩ := result
    cases outcome with
    | next pc =>
      obtain ⟨hsound, hfills⟩ := act_next hself hs.complete hact
      -- a call that comes to fill a file is the only one
      have hother (j : ℕ) (other : Task) (hj : j ≠ id) (hold : s.tasks j = some other)
          (hf : other.pc.IsFilling) : ¬ pc.IsFilling := by
        intro hnew
        rcases hfills hnew with hself | hfree
        · exact hj (hs.alone j id other task hold hid hf hself)
        · have hsound := hs.sound j other hold
          cases hpc : other.pc with
          | filling i secret written =>
            rw [hpc] at hsound
            cases hfree.symm.trans hsound.1
          | _ =>
            rw [hpc] at hf
            exact hf
      refine ⟨hleaves.change.complete hs.complete, ?_, ?_, fun key h =>
        hleaves.keeps key (hs.reported key h), ?_, hs.answered⟩
      · intro j other hj
        rcases of_update hj with ⟨-, hnew⟩ | ⟨hne, hold⟩
        · cases hnew
          exact hsound
        · exact hleaves.sound j other hne hold
      · intro j j' other other' hj hj' hf hf'
        rcases of_update hj with ⟨rfl, hnew⟩ | ⟨hne, hold⟩
        · rcases of_update hj' with ⟨rfl, -⟩ | ⟨hne', hold'⟩
          · rfl
          · cases hnew
            exact absurd hf (hother j' other' hne' hold' hf')
        · rcases of_update hj' with ⟨rfl, hnew⟩ | ⟨hne', hold'⟩
          · cases hnew
            exact absurd hf' (hother j other hne hold hf)
          · exact hs.alone j j' other other' hold hold' hf hf'
      · intro j other key hj hkey
        rcases of_update hj with ⟨-, hnew⟩ | ⟨hne, hold⟩
        · cases hnew
          have hkeeps := (hs.promised id task key hid hkey).1
          cases hdelivers key hkey with
          | next htrack hrank => exact ⟨hleaves.keeps key hkeeps, htrack⟩
        · obtain ⟨hkeeps, htrack⟩ := hs.promised j other key hold hkey
          exact ⟨hleaves.keeps key hkeeps, hleaves.onTrack _ key hkeeps htrack⟩
    | answer value =>
      have hold {j : ℕ} {other : Task}
          (h : update s.tasks id none j = some other) :
          j ≠ id ∧ s.tasks j = some other := by
        rcases of_update h with ⟨-, hnew⟩ | hold
        · cases hnew
        · exact hold
      refine ⟨hleaves.change.complete hs.complete, fun j other hj =>
        hleaves.sound j other (hold hj).1 (hold hj).2, fun j j' other other' hj hj' =>
        hs.alone j j' other other' (hold hj).2 (hold hj').2, ?_, ?_, ?_⟩
      · rintro key ⟨promised, hmem⟩
        rcases List.mem_cons.mp hmem with hnew | hmem
        · obtain ⟨-, rfl⟩ := Prod.mk.inj hnew
          exact act_present hself hact
        · exact hleaves.keeps key (hs.reported key ⟨promised, hmem⟩)
      · intro j other key hj hkey
        obtain ⟨hkeeps, htrack⟩ := hs.promised j other key (hold hj).2 hkey
        exact ⟨hleaves.keeps key hkeeps, hleaves.onTrack _ key hkeeps htrack⟩
      · intro key answer hmem
        rcases List.mem_cons.mp hmem with hnew | hmem
        · obtain ⟨hkey, rfl⟩ := Prod.mk.inj hnew
          cases hdelivers key hkey.symm with
          | present => exact .inl rfl
          | loaded => exact .inr rfl
        · exact hs.answered key answer hmem

end Act

lemma Invariant.step (hs : s.Invariant publicKey) {action : Action}
    (hcareful : s.Careful action) : (s.step publicKey action).Invariant publicKey := by
  cases action with
  | start id call => exact hs.start id call
  | act id choice => exact hs.act hcareful
  | crash id => exact hs.crash id
  | losePower contents intent => exact hs.losePower contents intent

lemma Invariant.keepsSeed (hs : s.Invariant publicKey) {action : Action}
    (hcareful : s.Careful action)
    (hpower : ∀ contents intent, action ≠ .losePower contents intent) :
    s.KeepsSeed (s.step publicKey action) := by
  intro i secret hholds
  cases action with
  | losePower contents intent => exact absurd rfl (hpower contents intent)
  | crash id => exact hholds
  | start id call =>
    cases hid : s.tasks id <;> simpa only [Custody.step, hid] using hholds
  | act id choice =>
    cases hid : s.tasks id with
    | none => simpa only [Custody.step, hid] using hholds
    | some task =>
      have hkept := hholds.quiet ((hs.leaves hid hcareful).change.quiet_of_holds hholds)
      simp only [Custody.step, hid]
      generalize Keys.act publicKey choice s.disk task.pc = result at hkept
      obtain ⟨disk, outcome⟩ := result
      cases outcome <;> exact hkept

lemma run_act_of_none (hid : s.tasks id = none) (choices : List Choice) :
    s.run publicKey (choices.map (.act id)) = s := by
  induction choices with
  | nil => rfl
  | cons choice choices ih =>
    have hstep : s.step publicKey (.act id choice) = s := by simp only [Custody.step, hid]
    exact (congrArg (run publicKey · _) hstep).trans ih

lemma Invariant.careful_of_promised (hs : s.Invariant publicKey) (hid : s.tasks id = some task)
    (hkey : task.promised = some key) : s.Careful (.act id c) := by
  rintro ⟨j, choice, other, restarts, haction, hother, hpc⟩
  obtain ⟨rfl, -⟩ := Action.act.inj haction
  obtain rfl := Option.some.inj (hid.symm.trans hother)
  have htrack := (hs.promised id task key hid hkey).2
  rw [hpc] at htrack
  exact htrack.elim

/-- A call that started after a report returns the key, within as many of its own steps as its
rank. -/
theorem Invariant.returns (hs : s.Invariant publicKey) (hid : s.tasks id = some task)
    (hkey : task.promised = some key) {choices : List Choice}
    (hlength : task.pc.rank ≤ choices.length) :
    (s.run publicKey (choices.map (.act id))).tasks id = none ∧
      ∃ answer, (s.run publicKey (choices.map (.act id))).answers =
        (some key, answer) :: s.answers := by
  induction choices generalizing s task with
  | nil =>
    -- every place on the way to the key has a step left
    have htrack := (hs.promised id task key hid hkey).2
    cases hpc : task.pc <;> rw [hpc] at htrack hlength <;>
      first
      | exact htrack.elim
      | exact absurd hlength (by simp [Pc.rank])
  | cons choice choices ih =>
    have hcareful := hs.careful_of_promised (c := choice) hid hkey
    have hnext := hs.act hcareful
    obtain ⟨⟨secret, rfl, hcommitted⟩, htrack⟩ := hs.promised id task key hid hkey
    have hdelivers : Delivers (publicKey secret) (Keys.act publicKey choice s.disk task.pc).1
        task.pc.rank (Keys.act publicKey choice s.disk task.pc).2 :=
      act_onTrack hcommitted (hs.sound id task hid) htrack
    rw [List.map_cons, show s.run publicKey (.act id choice :: choices.map (.act id)) =
      (s.step publicKey (.act id choice)).run publicKey (choices.map (.act id)) from rfl]
    have hstep : s.step publicKey (.act id choice) =
        s.settle id task (Keys.act publicKey choice s.disk task.pc) := by
      simp only [Custody.step, hid]
    rw [hstep] at hnext ⊢
    generalize Keys.act publicKey choice s.disk task.pc = result at hdelivers hnext ⊢
    obtain ⟨disk, outcome⟩ := result
    have hreturned (answer : Answer) :
        (s.settle id task (disk, .answer answer)).tasks id = none := update_self ..
    cases hdelivers with
    | @next pc htrack hrank =>
      rw [List.length_cons] at hlength
      have htask : (s.settle id task (disk, .next pc)).tasks id = some { task with pc := pc } :=
        update_self ..
      exact ih hnext htask hkey (Nat.le_of_lt_succ (hrank.trans_le hlength))
    | present =>
      rw [run_act_of_none (hreturned _)]
      exact ⟨hreturned _, _, congrArg (· :: s.answers) (congrArg (·, _) hkey)⟩
    | loaded =>
      rw [run_act_of_none (hreturned _)]
      exact ⟨hreturned _, _, congrArg (· :: s.answers) (congrArg (·, _) hkey)⟩

lemma Invariant.reported_eq (hs : s.Invariant publicKey) (h : s.Reported key) :
    s.reported = some key := by
  cases hreported : s.reported with
  | none =>
    obtain ⟨promised, hmem⟩ := h
    cases List.findSome?_eq_none_iff.mp hreported _ hmem
  | some key' =>
    have hkeeps := hs.reported key' (reported_of_eq_some hreported)
    rw [hkeeps.unique (hs.reported key h)]

/-- What a run of the file provider tells its callers is one key. -/
structure OneKey (publicKey : Seed → PublicKey) (s : Custody) (actions : List Action) : Prop where
  agree : ∀ key key', (s.run publicKey actions).Reported key →
    (s.run publicKey actions).Reported key' → key = key'
  told : ∀ before after, actions = before ++ after → ∀ key,
    (s.run publicKey before).Reported key → (s.run publicKey before).reported = some key
  answered : ∀ key answer, (some key, answer) ∈ (s.run publicKey actions).answers →
    answer = .created (.ok (.present key)) ∨ answer = .loaded (.ok key)
  returns : ∀ before after, actions = before ++ after → ∀ id task key,
    (s.run publicKey before).tasks id = some task → task.promised = some key →
    ∀ choices : List Choice, 9 ≤ choices.length →
    ((s.run publicKey before).run publicKey (choices.map (.act id))).tasks id = none ∧
      ∃ answer, ((s.run publicKey before).run publicKey (choices.map (.act id))).answers =
        (some key, answer) :: (s.run publicKey before).answers
  keepsSeed : ∀ before action after, actions = before ++ action :: after →
    (∀ contents intent, action ≠ .losePower contents intent) →
    (s.run publicKey before).KeepsSeed (s.run publicKey (before ++ [action]))

lemma CarefulRun.invariant {actions : List Action} (hs : s.Invariant publicKey)
    (hcareful : CarefulRun publicKey s actions) (before after : List Action)
    (hcut : actions = before ++ after) : (s.run publicKey before).Invariant publicKey :=
  invariant_of_run hs (fun before action after hsplit hinv =>
    hinv.step (hcareful before action after hsplit)) before after hcut

end Custody

lemma Pc.rank_le (pc : Pc) : pc.rank ≤ 9 := by
  cases pc <;> simp [Pc.rank]

/-- **One key per create operation**, in every run whose removals meet only what a dead creator
left: for any calls, crashes and losses of power, from any contents of the directory. -/
theorem one_key_of_carefulRun (publicKey : Seed → PublicKey)
    (contents intent : Option (List UInt8)) (actions : List Action)
    (hcareful : Custody.CarefulRun publicKey (.boot contents intent) actions) :
    Custody.OneKey publicKey (.boot contents intent) actions := by
  have hinv := hcareful.invariant (Custody.invariant_boot contents intent)
  have hend := hinv actions [] (List.append_nil _).symm
  refine ⟨fun key key' h h' => ?_, fun before after hcut key h => ?_, hend.answered, ?_, ?_⟩
  · exact (hend.reported key h).unique (hend.reported key' h')
  · exact (hinv before after hcut).reported_eq h
  · intro before after hcut id task key hid hkey choices hlength
    exact (hinv before after hcut).returns hid hkey (task.pc.rank_le.trans hlength)
  · intro before action after hsplit hpower
    have hkeeps := (hinv before (action :: after) hsplit).keepsSeed
      (hcareful before action after hsplit) hpower
    rwa [Custody.run, Custody.run, List.foldl_append]

/-! ## Runs that take a file over -/

def seedOf (byte : UInt8) : Seed := ⟨List.replicate 32 byte, List.length_replicate⟩

/-- One step of a call that would mint the byte's seed, whose waits are over and whose writes
are whole. -/
def actWith (id : ℕ) (byte : UInt8) : Action := .act id ⟨seedOf byte, true, 32⟩

def createsEmpty (id : ℕ) (byte : UInt8) : List Action :=
  .start id .create :: List.replicate 5 (actWith id byte)

def waitsOut (id : ℕ) (byte : UInt8) : List Action :=
  .start id .create :: List.replicate 2 (actWith id byte)

def takesOverAndMints (id : ℕ) (byte : UInt8) : List Action := List.replicate 12 (actWith id byte)

def deadCreator : List Action :=
  createsEmpty 0 1 ++ .crash 0 :: waitsOut 1 2 ++ takesOverAndMints 1 2

def slowCreator : List Action :=
  createsEmpty 0 1 ++ waitsOut 1 2 ++ takesOverAndMints 1 2 ++ List.replicate 4 (actWith 0 1)

namespace Custody

def takesOver (s : Custody) : Action → Bool
  | .act id _ =>
    match s.tasks id with
    | some ⟨_, .takeover _⟩ => true
    | _ => false
  | _ => false

lemma takesOver_eq_true {action : Action} (h : s.TakesOver action) :
    s.takesOver action = true := by
  obtain ⟨id, choice, ⟨promised, pc⟩, restarts, rfl, hid, rfl⟩ := h
  simp only [takesOver, hid]

def removesNothing (publicKey : Seed → PublicKey) : Custody → List Action → Bool
  | _, [] => true
  | s, action :: actions =>
    !s.takesOver action && removesNothing publicKey (s.step publicKey action) actions

lemma carefulRun_of_removesNothing {actions : List Action}
    (h : removesNothing publicKey s actions = true) : CarefulRun publicKey s actions := by
  induction actions generalizing s with
  | nil => exact everyStep_nil
  | cons action actions ih =>
    obtain ⟨hfirst, hrest⟩ := Bool.and_eq_true_iff.mp h
    refine everyStep_cons.mpr ⟨fun htakes => ?_, ih hrest⟩
    rw [takesOver_eq_true htakes] at hfirst
    cases hfirst

end Custody

/-- A removal of a dead creator's file is careful, and the second creator's key is the one. -/
theorem one_key_of_deadCreator :
    Custody.OneKey id (.boot none none) deadCreator ∧
      (Custody.run id (.boot none none) deadCreator).Reported (seedOf 2) := by
  refine ⟨one_key_of_carefulRun id none none deadCreator ?_, none, by decide +kernel⟩
  refine EveryStep.append (EveryStep.append
    (Custody.carefulRun_of_removesNothing (by decide +kernel))
    (Custody.carefulRun_of_removesNothing (by decide +kernel))) ?_
  refine everyStep_cons.mpr
    ⟨fun _ => ?_, Custody.carefulRun_of_removesNothing (by decide +kernel)⟩
  intro i hkey
  obtain rfl : 1 = i := Option.some.inj hkey
  refine ⟨by decide +kernel, fun j task hj => ?_⟩
  rintro ⟨secret, written, hpc⟩
  match j with
  | 0 => cases hj
  | 1 =>
    obtain rfl := Option.some.inj hj
    cases hpc
  | j + 2 => cases hj

/-- A slow creator reports its own key after the key that took its name, and the next reconcile
does not return it.  Had it filled its file just before the removal, a full seed would be gone. -/
theorem slow_creator_reports_second_key :
    (Custody.run id (.boot none none) slowCreator).answers =
        [(none, .created (.ok (.present (seedOf 1)))),
          (none, .created (.ok (.present (seedOf 2))))] ∧
      seedOf 1 ≠ seedOf 2 ∧
      (Custody.run id (.boot none none)
          (slowCreator ++ .start 2 .reconcile :: List.replicate 9 (actWith 2 3))).answers.head? =
        some (some (seedOf 1), .created (.ok (.present (seedOf 2)))) ∧
      (Custody.run id (.boot none none)
          (createsEmpty 0 1 ++ waitsOut 1 2 ++ [actWith 0 1])).disk.Holds 1 (seedOf 1) ∧
      (Custody.run id (.boot none none)
          (createsEmpty 0 1 ++ waitsOut 1 2 ++ [actWith 0 1] ++ [actWith 1 2])).disk.key =
        none := by
  refine ⟨by decide +kernel, by decide, by decide +kernel, ⟨by decide +kernel, by decide +kernel⟩,
    by decide +kernel⟩

end Radiata.Keys
