import Radiata.Lib.Least
import Radiata.Resource.Convergence
import Radiata.Resource.Lane

/-!
# Sweeps of the removals

A sweep gathers the expired removals, up to its bound, and the oldest of the fresh ones, up to
the cap; what it deletes is the expired ones and then, oldest first, as many fresh ones as exceed
the cap and still fit the bound.  The gathering reads each row once, so the candidates it holds
are cut to the cap on the way.

Every sweep that deletes anything leaves fewer rows, so the sweeps come to rest.
-/

namespace Radiata.Resource

open Lib Reconcile
open RemovalCandidate (stamped)

section Gathering

variable (sha256 : Hash) (now : ℤ) (retention cap : ℕ)

/-- The stamp of a row that holds a removal. -/
def removalStamp (content : List UInt8) : Option ℤ :=
  match ResourceRecordV1.decode sha256 content with
  | .ok record => if record.removed then some record.timestamp else none
  | .error _ => none

def Elapsed (stamp : ℤ) : Prop := (retention : ℤ) ≤ now - stamp

instance (stamp : ℤ) : Decidable (Elapsed now retention stamp) :=
  inferInstanceAs (Decidable (_ ≤ _))

variable (entries : List (List UInt8 × List UInt8))

def removals : List RemovalCandidate :=
  entries.filterMap fun entry => (removalStamp sha256 entry.2).map (⟨·, entry.1⟩)

def expired : List RemovalCandidate :=
  (removals sha256 entries).filter fun c => Elapsed now retention c.stamped

def fresh : List RemovalCandidate :=
  (removals sha256 entries).filter fun c => ¬ Elapsed now retention c.stamped

lemma visit_eq (sweep : Sweep) (entry : List UInt8 × List UInt8) :
    Sweep.visit sha256 now retention cap sweep entry =
      match removalStamp sha256 entry.2 with
      | none => sweep
      | some stamp =>
        if Elapsed now retention stamp then
          { sweep with
            due := if sweep.due.length < retentionSweepBound then sweep.due ++ [entry.1]
              else sweep.due }
        else
          { sweep with
            freshTotal := sweep.freshTotal + 1
            oldest := (insertRanked stamped sweep.oldest ⟨stamp, entry.1⟩).take cap } := by
  unfold Sweep.visit removalStamp
  cases ResourceRecordV1.decode sha256 entry.2 with
  | error e => rfl
  | ok record =>
    cases hremoved : record.removed with
    | false => simp [hremoved]
    | true =>
      simp only [hremoved, removalRetentionElapsed, Elapsed, Sweep.push, insertRanked, if_true,
        decide_eq_true_eq]
      rfl

lemma take_concat_of_bound {α : Type} (l : List α) (a : α) (bound : ℕ) :
    (if (l.take bound).length < bound then l.take bound ++ [a] else l.take bound) =
      (l ++ [a]).take bound := by
  rw [List.length_take]
  split_ifs with h
  · have hlt : l.length < bound := by omega
    rw [List.take_of_length_le hlt.le, List.take_of_length_le (by simpa using hlt)]
  · rw [List.take_append_of_le_length (by omega)]

/-- **What a sweep gathers**: the expired removals up to the bound, and the oldest fresh ones up
to the cap. -/
theorem sweep_gathers : entries.foldl (Sweep.visit sha256 now retention cap) ⟨[], 0, []⟩ =
      ⟨((expired sha256 now retention entries).map RemovalCandidate.key).take retentionSweepBound,
        (fresh sha256 now retention entries).length,
        (ranked stamped (fresh sha256 now retention entries)).take cap⟩ := by
  induction entries using List.reverseRecOn with
  | nil => simp [expired, fresh, removals, ranked]
  | append_singleton entries entry ih =>
    let last := ((removalStamp sha256 entry.2).map (⟨·, entry.1⟩ : ℤ → RemovalCandidate)).toList
    have hremovals : removals sha256 (entries ++ [entry]) = removals sha256 entries ++ last := by
      rw [removals, List.filterMap_append]
      cases h : removalStamp sha256 entry.2 <;> simp [removals, last, h]
    have hexpired : expired sha256 now retention (entries ++ [entry]) =
        expired sha256 now retention entries ++ last.filter fun c =>
          Elapsed now retention c.stamped := by
      rw [expired, hremovals, List.filter_append, expired]
    have hfresh : fresh sha256 now retention (entries ++ [entry]) =
        fresh sha256 now retention entries ++ last.filter fun c =>
          ¬ Elapsed now retention c.stamped := by
      rw [fresh, hremovals, List.filter_append, fresh]
    rw [List.foldl_append, ih, List.foldl_cons, List.foldl_nil, visit_eq, hexpired, hfresh]
    cases hstamp : removalStamp sha256 entry.2 with
    | none => simp [last, hstamp]
    | some stamp =>
      have hlast : last = [⟨stamp, entry.1⟩] := by simp [last, hstamp]
      rw [hlast]
      by_cases helapsed : Elapsed now retention stamp
      · simp [helapsed, ← take_concat_of_bound]
      · simp [helapsed, ranked_concat, take_insertRanked_take (ranked_ordered _ _)]

variable (registers : Registers)

/-- The keys one sweep deletes. -/
def sweptKeys : List (List UInt8) :=
  (registers.entries.foldl (Sweep.visit sha256 now retention cap) ⟨[], 0, []⟩).deletes cap

/-- One sweep whose commit lands. -/
def swept : Registers :=
  (sweepRemoved sha256 registers now retention cap .committed).store

end Gathering

section Sweeps

variable {sha256 : Hash} {now : ℤ} {retention cap : ℕ} {registers : Registers}

/-- The fresh removals a sweep deletes are the first of all fresh ones in order of their stamps,
and there are none only if the fresh ones fit the cap. -/
theorem exists_evicted (sha256 : Hash) (now : ℤ) (retention : ℕ) (hcap : 0 < cap)
    (registers : Registers) : ∃ evicted,
    evicted <+: ranked stamped (fresh sha256 now retention registers.entries) ∧
      sweptKeys sha256 now retention cap registers =
        ((expired sha256 now retention registers.entries).map RemovalCandidate.key).take
          retentionSweepBound ++ evicted.map RemovalCandidate.key ∧
      (sweptKeys sha256 now retention cap registers).length ≤ retentionSweepBound ∧
      (sweptKeys sha256 now retention cap registers = [] →
        expired sha256 now retention registers.entries = [] ∧
          (fresh sha256 now retention registers.entries).length ≤ cap) := by
  have hkeys : sweptKeys sha256 now retention cap registers = _ :=
    congrArg (Sweep.deletes cap) (sweep_gathers sha256 now retention cap registers.entries)
  have hlength := (ranked_perm stamped
    (fresh sha256 now retention registers.entries)).length_eq
  have hbound : retentionSweepBound = 4096 := rfl
  refine ⟨_, ?_, hkeys, ?_, fun hnone => ?_⟩
  · exact (List.take_prefix _ _).trans (List.take_prefix _ _)
  · rw [hkeys]
    simp only [Sweep.deletes, List.length_append, List.length_map, List.length_take]
    omega
  · rw [hkeys, Sweep.deletes, List.append_eq_nil_iff] at hnone
    obtain ⟨hexpired, hevicted⟩ := hnone
    have hexpired := congrArg List.length hexpired
    have hevicted := congrArg List.length hevicted
    simp only [List.length_map, List.length_take, List.length_nil] at hexpired hevicted
    exact ⟨List.length_eq_zero_iff.mp (by omega), by omega⟩

variable {c : RemovalCandidate}

lemma mem_removals {entries : List (List UInt8 × List UInt8)} : c ∈ removals sha256 entries ↔
      ∃ entry ∈ entries, entry.1 = c.key ∧ removalStamp sha256 entry.2 = some c.stamped := by
  simp only [removals, List.mem_filterMap, Option.map_eq_some_iff]
  constructor
  · rintro ⟨entry, hentry, stamp, hstamp, rfl⟩
    exact ⟨entry, hentry, rfl, hstamp⟩
  · rintro ⟨entry, hentry, hkey, hstamp⟩
    exact ⟨entry, hentry, c.stamped, hstamp, by rw [hkey]⟩

variable {entry : List UInt8 × List UInt8}

lemma removalStamp_of_mem (hentry : entry ∈ registers)
    (hc : c ∈ removals sha256 registers.entries) (hkey : c.key = entry.1) :
    removalStamp sha256 entry.2 = some c.stamped := by
  obtain ⟨other, hother, hsame, hstamp⟩ := mem_removals.mp hc
  have hvalue := registers.ascending.eq_of_mem_of_mem (k := entry.1) hentry
    (show (entry.1, other.2) ∈ registers.entries by rw [← hkey, ← hsame]; exact hother)
  rw [hvalue]
  exact hstamp

lemma swept_eq (registers : Registers) : swept sha256 now retention cap registers =
    deleteRows registers (sweptKeys sha256 now retention cap registers) := by
  unfold swept sweepRemoved
  rw [← sweptKeys]
  cases hkeys : sweptKeys sha256 now retention cap registers with
  | nil => simp [deleteRows, OrdMap.filter, Storage.Commit.none]
  | cons key keys => rfl

lemma mem_swept : entry ∈ swept sha256 now retention cap registers ↔
    entry ∈ registers ∧ entry.1 ∉ sweptKeys sha256 now retention cap registers := by
  rw [swept_eq, deleteRows, OrdMap.mem_filter]
  simp

/-- What one sweep does: it deletes removals only, at most its bound, and no fresh one while it
keeps an older one. -/
structure SweepSound (sha256 : Hash) (now : ℤ) (retention cap : ℕ) (registers : Registers) :
    Prop where
  kept : ∀ entry ∈ swept sha256 now retention cap registers, entry ∈ registers
  removal : ∀ entry ∈ registers, entry ∉ swept sha256 now retention cap registers →
    (removalStamp sha256 entry.2).isSome
  bounded : registers.entries.length ≤
    (swept sha256 now retention cap registers).entries.length + retentionSweepBound
  oldest : ∀ a ∈ registers, a ∉ swept sha256 now retention cap registers →
    ∀ b ∈ swept sha256 now retention cap registers, ∀ s s', removalStamp sha256 a.2 = some s →
      ¬ Elapsed now retention s → removalStamp sha256 b.2 = some s' → ¬ Elapsed now retention s' →
        s ≤ s'

lemma exists_candidate (hcap : 0 < cap) {key : List UInt8}
    (h : key ∈ sweptKeys sha256 now retention cap registers) :
    ∃ c ∈ removals sha256 registers.entries, c.key = key := by
  obtain ⟨evicted, hevicted, hkeys, -⟩ := exists_evicted sha256 now retention hcap registers
  rw [hkeys] at h
  rcases List.mem_append.mp h with h | h
  · obtain ⟨c, hc, rfl⟩ := List.mem_map.mp (List.mem_of_mem_take h)
    exact ⟨c, (List.mem_filter.mp hc).1, rfl⟩
  · obtain ⟨c, hc, rfl⟩ := List.mem_map.mp h
    exact ⟨c, (List.mem_filter.mp ((ranked_perm _ _).subset (hevicted.subset hc))).1, rfl⟩

lemma mem_sweptKeys_of_not_mem (hentry : entry ∈ registers)
    (hgone : entry ∉ swept sha256 now retention cap registers) :
    entry.1 ∈ sweptKeys sha256 now retention cap registers := by
  by_contra hkept
  exact hgone (mem_swept.mpr ⟨hentry, hkept⟩)

lemma length_le_length_swept (registers : Registers) : registers.entries.length ≤
    (swept sha256 now retention cap registers).entries.length +
      (sweptKeys sha256 now retention cap registers).length := by
  rw [swept_eq]
  generalize sweptKeys sha256 now retention cap registers = keys
  have hgone : ((registers.entries.filter fun e => keys.contains e.1).map Prod.fst).length ≤
      keys.length := by
    refine (List.subperm_of_subset ?_ fun key hkey => ?_).length_le
    · exact (List.pairwise_map.mpr (registers.ascending.filter _)).imp ne_of_lt
    · obtain ⟨entry, hentry, rfl⟩ := List.mem_map.mp hkey
      simpa using (List.mem_filter.mp hentry).2
  rw [List.length_map] at hgone
  have hsplit := List.length_eq_length_filter_add (l := registers.entries)
    fun e => keys.contains e.1
  show _ ≤ (registers.entries.filter fun e => !keys.contains e.1).length + _
  omega

/-- **One sweep is sound.** -/
theorem sweepSound (hcap : 0 < cap) (registers : Registers) :
    SweepSound sha256 now retention cap registers := by
  obtain ⟨evicted, ⟨rest, hrest⟩, hkeys, hbound, -⟩ :=
    exists_evicted sha256 now retention hcap registers
  refine ⟨fun entry hentry => (mem_swept.mp hentry).1, fun entry hentry hgone => ?_,
    (length_le_length_swept registers).trans (Nat.add_le_add_left hbound _), ?_⟩
  · obtain ⟨c, hc, hkey⟩ := exists_candidate hcap (mem_sweptKeys_of_not_mem hentry hgone)
    rw [removalStamp_of_mem hentry hc hkey]
    rfl
  intro a ha hgone b hb s s' hs hfresh hs' hfresh'
  obtain ⟨hkept, hspared⟩ := mem_swept.mp hb
  have hkey := mem_sweptKeys_of_not_mem ha hgone
  rw [hkeys] at hkey hspared
  -- the deleted one was evicted, the kept one comes behind all that were
  rcases List.mem_append.mp hkey with hkey | hkey
  · obtain ⟨c, hc, hsame⟩ := List.mem_map.mp (List.mem_of_mem_take hkey)
    obtain ⟨hremoval, helapsed⟩ := List.mem_filter.mp hc
    have hstamp := hs.symm.trans (removalStamp_of_mem ha hremoval hsame)
    exact absurd (of_decide_eq_true helapsed) (Option.some.inj hstamp ▸ hfresh)
  · obtain ⟨c, hc, hsame⟩ := List.mem_map.mp hkey
    have hordered := ranked_ordered stamped
      (fresh sha256 now retention registers.entries)
    have hranked (d : RemovalCandidate) := (ranked_perm stamped
      (fresh sha256 now retention registers.entries)).mem_iff (a := d)
    rw [← hrest] at hordered hranked
    have hremoval := (List.mem_filter.mp ((hranked c).mp (List.mem_append_left _ hc))).1
    have hlater : (⟨s', b.1⟩ : RemovalCandidate) ∈ fresh sha256 now retention registers.entries :=
      List.mem_filter.mpr ⟨mem_removals.mpr ⟨b, hkept, rfl, hs'⟩, decide_eq_true hfresh'⟩
    rw [Option.some.inj (hs.symm.trans (removalStamp_of_mem ha hremoval hsame))]
    rcases List.mem_append.mp ((hranked _).mpr hlater) with hevicted | hbehind
    · exact absurd (List.mem_append_right _ (List.mem_map_of_mem hevicted)) hspared
    · exact (List.pairwise_append.mp hordered).2.2 c hc _ hbehind

/-! ## Rest -/

/-- No removal is expired, and the removals fit the cap. -/
def Settled (sha256 : Hash) (now : ℤ) (retention cap : ℕ) (registers : Registers) : Prop :=
  (∀ entry ∈ registers, ∀ s, removalStamp sha256 entry.2 = some s → ¬ Elapsed now retention s) ∧
    (removals sha256 registers.entries).length ≤ cap

lemma settled_of_idle (hcap : 0 < cap) (h : sweptKeys sha256 now retention cap registers = []) :
    Settled sha256 now retention cap registers := by
  obtain ⟨-, -, -, -, hidle⟩ := exists_evicted sha256 now retention hcap registers
  obtain ⟨hexpired, hfits⟩ := hidle h
  have hfresh : ∀ c ∈ removals sha256 registers.entries, ¬ Elapsed now retention c.stamped :=
    fun c hc => by simpa using List.filter_eq_nil_iff.mp hexpired c hc
  rw [fresh, List.filter_eq_self.mpr fun c hc => decide_eq_true (hfresh c hc)] at hfits
  exact ⟨fun entry hentry s hs => hfresh ⟨s, entry.1⟩ (mem_removals.mpr ⟨entry, hentry, rfl, hs⟩),
    hfits⟩

lemma sweep_answer (registers : Registers) :
    (sweepRemoved sha256 registers now retention cap .committed).answer =
      .ok (sweptKeys sha256 now retention cap registers).length := by
  unfold sweepRemoved
  rw [← sweptKeys]
  cases sweptKeys sha256 now retention cap registers <;> rfl

lemma length_swept_lt (hcap : 0 < cap) (h : sweptKeys sha256 now retention cap registers ≠ []) :
    (swept sha256 now retention cap registers).entries.length < registers.entries.length := by
  obtain ⟨key, hkey⟩ := List.exists_mem_of_ne_nil _ h
  obtain ⟨c, hc, hsame⟩ := exists_candidate hcap hkey
  obtain ⟨entry, hentry, hname, -⟩ := mem_removals.mp hc
  rw [swept_eq]
  refine List.length_filter_lt_length_iff_exists.mpr ⟨entry, hentry, ?_⟩
  rw [hname, hsame]
  simpa using hkey

lemma exists_idle (hcap : 0 < cap) (registers : Registers) : ∃ n,
    sweptKeys sha256 now retention cap ((swept sha256 now retention cap)^[n] registers) = [] := by
  induction hlen : registers.entries.length using Nat.strong_induction_on generalizing
    registers with
  | _ len ih =>
    by_cases h : sweptKeys sha256 now retention cap registers = []
    · exact ⟨0, h⟩
    · obtain ⟨n, hn⟩ := ih _ (hlen ▸ length_swept_lt hcap h) _ rfl
      exact ⟨n + 1, hn⟩

/-- **Sweeps converge to the retention policy.**  Every sweep is sound; a sweep that answers 0
leaves no expired removal and at most the cap of them; and some sweep answers 0. -/
theorem removal_sweeps_converge (sha256 : Hash) (now : ℤ) (retention : ℕ) (hcap : 0 < cap)
    (registers : Registers) :
    (∀ n, SweepSound sha256 now retention cap ((swept sha256 now retention cap)^[n] registers) ∧
      ((sweepRemoved sha256 ((swept sha256 now retention cap)^[n] registers) now retention cap
          .committed).answer = .ok 0 →
        Settled sha256 now retention cap ((swept sha256 now retention cap)^[n] registers))) ∧
      ∃ n, (sweepRemoved sha256 ((swept sha256 now retention cap)^[n] registers) now retention cap
        .committed).answer = .ok 0 := by
  refine ⟨fun n => ⟨sweepSound hcap _, fun hanswer => settled_of_idle hcap ?_⟩, ?_⟩
  · rw [sweep_answer] at hanswer
    exact List.length_eq_zero_iff.mp (Except.ok.inj hanswer)
  · obtain ⟨n, hidle⟩ := exists_idle hcap registers
    exact ⟨n, by rw [sweep_answer, hidle]; rfl⟩

def sampleRemovals : Registers :=
  OrdMap.empty.insert (recordKey sampleName) ((sampleRecord 1 true).encode.toOption.getD [])

/-- The removal is swept once, and then nothing is. -/
theorem sample_sweeps_end :
    (sweepRemoved sumHash sampleRemovals 100000000 0 1 .committed).answer = .ok 1 ∧
      ∃ n, (sweepRemoved sumHash ((swept sumHash 100000000 0 1)^[n] sampleRemovals)
        100000000 0 1 .committed).answer = .ok 0 :=
  ⟨by decide +kernel,
    (removal_sweeps_converge sumHash 100000000 0 (by decide : 0 < 1) sampleRemovals).2⟩

end Sweeps

end Radiata.Resource
