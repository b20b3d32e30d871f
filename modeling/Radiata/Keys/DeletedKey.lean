import Radiata.Keys.MetadataCustody
import Radiata.Keys.OneKey

/-!
# A deleted key stops signing

A call that read a seed, or whose commit stored one, caches or reports it at its next step.  A
delete can run in between: it removes the row, evicts the cache and returns.  The late call
then fills the cache again, and the deleted key signs.

Where the row still holds the seed whenever a call caches or reports one, the cache is empty
from the return of a delete until a create commits, a call that starts in that time loads no
key, and the keys reported present between two deletions are the same.
-/

namespace Radiata.Keys.Metadata

open Identity Storage Lib
open Reconcile (Hash zeroHash)

variable {sha256 : Hash} {publicKey : Seed → PublicKey} {c : Choice} {store store' : Store}
  {cache cache' : Option Seed} {pc pc' : Pc} {outcome : Outcome} {key : PublicKey}

/-! ## What a step of a call can do -/

def Pc.uses (c : Choice) : Pc → Option Seed
  | .get op _ (some value) =>
    match op, c.fault with
    | .delete _, _ | .reconcileDelete, _ | _, some _ => none
    | _, none => seedFromRow value
  | .settled _ (.put secret) (.ok .committed) _ => some secret
  | .reconcile _ (.put secret) true => if c.fault.isNone then some secret else none
  | _ => none

inductive RowChange : Option StoreValue → Option StoreValue → Prop where
  | same (row : Option StoreValue) : RowChange row row
  | put (value : StoreValue) : RowChange none (some value)
  | remove (value : StoreValue) : RowChange (some value) none

inductive CacheChange (c : Choice) (pc : Pc) (cache : Option Seed) : Option Seed → Prop where
  | same : CacheChange c pc cache cache
  | evict : CacheChange c pc cache none
  | insert {secret : Seed} : pc.uses c = some secret → CacheChange c pc cache (some secret)

structure Returned (publicKey : Seed → PublicKey) (c : Choice) (cache cache' : Option Seed)
    (pc : Pc) (answer : Answer) : Prop where
  present : ∀ key, answer = .created (.ok (.present key)) →
    ∃ secret, pc.uses c = some secret ∧ publicKey secret = key
  loaded : ∀ key, answer = .loaded (.ok key) →
    cache ≠ none ∨ ∃ op revision value, pc = .get op revision (some value)
  deleted : pc.op.returnsDeleted answer = true → cache' = none

lemma returned_failed (op : Op) (error : Error) :
    Returned publicKey c cache cache' pc (op.failed error) where
  present key h := by cases op <;> cases h
  loaded key h := by cases op <;> cases h
  deleted h := by cases hop : pc.op <;> cases op <;> rw [hop] at h <;> cases h

structure CallSpec (publicKey : Seed → PublicKey) (c : Choice) (cache : Option Seed) (pc : Pc)
    (result : Option Seed × Outcome) : Prop where
  change : CacheChange c pc cache result.1
  answered : ∀ answer, result.2 = .answer answer →
    Returned publicKey c cache result.1 pc answer
  next : ∀ op revision row, result.2 ≠ .next (.get op revision row)

lemma callSpec_failed (op : Op) (error : Error) :
    CallSpec publicKey c cache pc (cache, .answer (op.failed error)) where
  change := .same
  answered answer h := by
    cases h
    exact returned_failed op error
  next op revision row h := nomatch h

lemma callSpec_present {secret : Seed} (huses : pc.uses c = some secret)
    (hcache : CacheChange c pc cache cache') :
    CallSpec publicKey c cache pc (cache', present publicKey secret) where
  change := hcache
  answered answer h := by
    cases h
    refine ⟨fun key h => ?_, fun key h => (nomatch h), fun h => ?_⟩
    · cases h
      exact ⟨secret, huses, rfl⟩
    · cases hop : pc.op <;> rw [hop] at h <;> cases h
  next op revision row h := nomatch h

lemma callSpec_created {state : KeyCreateState} (hstate : ∀ key, state ≠ .present key) :
    CallSpec publicKey c cache pc (cache, .answer (.created (.ok state))) where
  change := .same
  answered answer h := by
    cases h
    refine ⟨fun key h => ?_, fun key h => (nomatch h), fun h => ?_⟩
    · cases h
      exact absurd rfl (hstate key)
    · cases hop : pc.op <;> rw [hop] at h <;> cases h
  next op revision row h := nomatch h

lemma callSpec_deleted {state : KeyDeleteState} (hcache : CacheChange c pc cache cache')
    (hgone : pc.op.returnsDeleted (.deleted (.ok state)) = true → cache' = none) :
    CallSpec publicKey c cache pc (cache', .answer (.deleted (.ok state))) where
  change := hcache
  answered answer h := by
    cases h
    exact ⟨fun key h => (nomatch h), fun key h => (nomatch h), hgone⟩
  next op revision row h := nomatch h

lemma callSpec_next (hget : ∀ op revision row, pc' ≠ .get op revision row) :
    CallSpec publicKey c cache pc (cache, .next pc') where
  change := .same
  answered _ h := nomatch h
  next op revision row h := hget op revision row (Outcome.next.inj h)

variable {row : Option StoreValue}

lemma loadRow_spec {op : Op} {context : String} {revision : ℕ}
    (huses : ∀ value, row = some value → (Pc.get op revision row).uses c = seedFromRow value) :
    CallSpec publicKey c cache (.get op revision row) (loadRow publicKey op context cache row) := by
  cases row with
  | none => exact callSpec_failed op _
  | some value =>
    cases hseed : seedFromRow value with
    | none =>
      simp only [loadRow, hseed]
      exact callSpec_failed op _
    | some secret =>
      simp only [loadRow, hseed]
      refine ⟨.insert ((huses value rfl).trans hseed), fun answer h => ?_,
        fun _ _ _ h => nomatch h⟩
      cases h
      refine ⟨fun key h => (nomatch h), fun key _ => .inr ⟨op, revision, value, rfl⟩,
        fun h => ?_⟩
      cases op <;> cases h

lemma Op.read_spec {op : Op} {revision : ℕ} (hfault : c.fault = none) :
    CallSpec publicKey c cache (.get op revision row)
      (op.read sha256 publicKey c revision cache row) := by
  have hseeded {op : Op} {value : StoreValue} {secret : Seed}
      (huses : (Pc.get op revision (some value)).uses c = seedFromRow value)
      (hseed : seedFromRow value = some secret) :
      CallSpec publicKey c cache (.get op revision (some value))
        (cache, present publicKey secret) :=
    callSpec_present (huses.trans hseed) .same
  cases op with
  | create left =>
    cases row with
    | none => exact callSpec_next fun _ _ _ => nofun
    | some value =>
      cases hseed : seedFromRow value with
      | none =>
        simp only [Op.read, hseed]
        exact callSpec_created fun _ => nofun
      | some secret =>
        simp only [Op.read, hseed]
        exact hseeded (by simp only [Pc.uses, hfault]) hseed
  | reconcileCreate =>
    cases row with
    | none => exact callSpec_created fun _ => nofun
    | some value =>
      cases hseed : seedFromRow value with
      | none =>
        simp only [Op.read, hseed]
        exact callSpec_created fun _ => nofun
      | some secret =>
        simp only [Op.read, hseed]
        exact hseeded (by simp only [Pc.uses, hfault]) hseed
  | publicKey | sign =>
    refine loadRow_spec fun value hrow => ?_
    simp only [hrow, Pc.uses, hfault]
  | delete left =>
    cases row with
    | none => exact callSpec_deleted .evict fun _ => rfl
    | some value => exact callSpec_next fun _ _ _ => nofun
  | reconcileDelete =>
    cases row with
    | none => exact callSpec_deleted .evict fun _ => rfl
    | some value => exact callSpec_deleted .same nofun

lemma Op.retry_spec (op : Op) : CallSpec publicKey c cache pc (cache, op.retry) := by
  cases op with
  | create left =>
    cases left with
    | zero => exact callSpec_failed (.create 0) _
    | succ left => exact callSpec_next fun _ _ _ => nofun
  | delete left =>
    cases left with
    | zero => exact callSpec_failed (.delete 0) _
    | succ left => exact callSpec_next fun _ _ _ => nofun
  | reconcileCreate | publicKey | sign | reconcileDelete => exact callSpec_next fun _ _ _ => nofun

lemma Op.afterCommit_spec {op : Op} {change : Change} {result : CommitOutcome}
    (huses : ∀ secret, change = .put secret → result = .committed → pc.uses c = some secret) :
    CallSpec publicKey c cache pc (op.afterCommit publicKey change cache result) := by
  have hunknown : pc.op.returnsDeleted (.deleted (.ok .unknown)) = true → cache = none := by
    intro h
    cases hop : pc.op <;> rw [hop] at h <;> cases h
  cases result with
  | committed =>
    cases change with
    | put secret =>
      have hput := huses secret rfl rfl
      exact callSpec_present hput (.insert hput)
    | remove expected => exact callSpec_deleted .evict fun _ => rfl
  | aborted | conflict => exact op.retry_spec
  | unknown =>
    cases change with
    | put secret => exact callSpec_created fun _ => nofun
    | remove expected => exact callSpec_deleted .same hunknown

lemma Store.apply_row {base : ℕ} {change : Change}
    (h : store.commitPrecheck sha256 base change = true) :
    RowChange store.row (store.apply change).row := by
  obtain ⟨-, hmatches⟩ := Bool.and_eq_true_iff.mp h
  cases hrow : store.row with
  | none =>
    cases change with
    | put secret => exact .put secret.1
    | remove expected =>
      rw [hrow] at hmatches
      cases hmatches
  | some value =>
    cases change with
    | put secret =>
      rw [hrow] at hmatches
      cases hmatches
    | remove expected => exact .remove value

structure ActSpec (publicKey : Seed → PublicKey) (c : Choice) (store : Store)
    (cache : Option Seed) (pc : Pc) (result : Store × Option Seed × Outcome) : Prop where
  row : RowChange store.row result.1.row
  change : CacheChange c pc cache result.2.1
  answered : ∀ answer, result.2.2 = .answer answer →
    result.1 = store ∧ Returned publicKey c cache result.2.1 pc answer
  snapshot : ∀ op revision row, result.2.2 = .next (.get op revision row) → row = store.row

lemma CallSpec.actSpec {result : Option Seed × Outcome}
    (h : CallSpec publicKey c cache pc result) :
    ActSpec publicKey c store cache pc (store, result) where
  row := .same _
  change := h.change
  answered answer ha := ⟨rfl, h.answered answer ha⟩
  snapshot op revision row hn := absurd hn (h.next op revision row)

lemma act_spec : ActSpec publicKey c store cache pc (act sha256 publicKey c store cache pc) := by
  cases pc with
  | lookup op =>
    cases cache with
    | none =>
      refine (callSpec_next ?_).actSpec
      exact fun _ _ _ => nofun
    | some secret =>
      refine ⟨.same _, .same, fun answer h => ⟨rfl, ?_⟩, fun _ _ _ h => nomatch h⟩
      cases h
      refine ⟨fun key h => (nomatch h), fun key _ => .inl (Option.some_ne_none _), fun h => ?_⟩
      cases op <;> cases h
  | snapshot op =>
    simp only [act]
    split
    · exact (callSpec_failed op _).actSpec
    · refine ⟨.same _, .same, fun answer h => (nomatch h), fun op revision row h => ?_⟩
      cases h
      rfl
  | get op revision row =>
    simp only [act]
    split
    · exact (callSpec_failed op _).actSpec
    · next hfault => exact (Op.read_spec hfault).actSpec
  | commit op base change =>
    refine ⟨?_, .same, fun answer h => (nomatch h), fun _ _ _ h => nomatch h⟩
    simp only [act]
    split_ifs with happlied
    · exact Store.apply_row (Bool.and_eq_true_iff.mp happlied).1
    · exact .same _
  | settled op change outcome applied =>
    simp only [act]
    split
    · exact (callSpec_failed op _).actSpec
    · refine (callSpec_next ?_).actSpec
      exact fun _ _ _ => nofun
    · refine (Op.afterCommit_spec fun secret hchange hresult => ?_).actSpec
      rw [hchange, hresult]
      rfl
  | reconcile op change applied =>
    simp only [act]
    split
    · exact (callSpec_failed op _).actSpec
    · next hfault =>
      refine (Op.afterCommit_spec fun secret hchange hresult => ?_).actSpec
      cases applied with
      | true =>
        rw [hchange]
        simp only [Pc.uses, hfault]
        rfl
      | false => cases hresult

/-! ## Runs -/

def Pc.Barren : Pc → Prop
  | .get _ _ row => row = none
  | _ => True

namespace Custody

def uses (s : Custody) : Action → Option Seed
  | .act id c => (s.tasks id).bind fun task => task.pc.uses c
  | _ => none

def Fresh (s : Custody) (action : Action) : Prop :=
  ∀ secret ∈ s.uses action, s.store.row = some secret.1

instance (s : Custody) (action : Action) : Decidable (s.Fresh action) :=
  inferInstanceAs (Decidable (∀ secret ∈ s.uses action, s.store.row = some secret.1))

structure Invariant (publicKey : Seed → PublicKey) (s : Custody) : Prop where
  closed : s.closed = true → s.store.row = none ∧ s.cache = none
  present : ∀ l ∈ s.answers, ∀ key, l.answer = .created (.ok (.present key)) →
    l.deletions ≤ s.deletions ∧
      (l.deletions = s.deletions →
        ∃ secret : Seed, s.store.row = some secret.1 ∧ publicKey secret = key)
  agree : ∀ l ∈ s.answers, ∀ l' ∈ s.answers, l.deletions = l'.deletions → ∀ key key',
    l.answer = .created (.ok (.present key)) → l'.answer = .created (.ok (.present key')) →
    key = key'
  shut : ∀ id task n, s.tasks id = some task → task.shut = some n →
    n ≤ s.creations ∧ (n = s.creations → s.closed = true ∧ task.pc.Barren)
  loaded : ∀ l ∈ s.answers, l.shut = some l.creations → ∀ key, l.answer ≠ .loaded (.ok key)

variable {s : Custody}

lemma invariant_opened (row : Option StoreValue) : (opened row).Invariant publicKey where
  closed h := nomatch h
  present _ h := nomatch h
  agree _ h := nomatch h
  shut _ _ _ h := nomatch h
  loaded _ h := nomatch h

lemma replace_cases (hrow : RowChange s.store.row store'.row) (cache' : Option Seed) :
    store'.row = s.store.row ∧ (s.replace store' cache').creations = s.creations ∧
        (s.replace store' cache').deletions = s.deletions ∧
        (s.replace store' cache').closed = s.closed ∨
      s.store.row = none ∧ (s.replace store' cache').creations = s.creations + 1 ∧
        (s.replace store' cache').deletions = s.deletions ∧
        (s.replace store' cache').closed = false ∨
      s.store.row ≠ none ∧ (s.replace store' cache').creations = s.creations ∧
        (s.replace store' cache').deletions = s.deletions + 1 ∧
        (s.replace store' cache').closed = s.closed := by
  generalize hold : s.store.row = row at hrow
  generalize hnew : store'.row = row' at hrow
  cases hrow with
  | same => cases row <;> simp [replace, hold, hnew]
  | put value | remove value => simp [replace, hold, hnew]

lemma Invariant.replace (hs : s.Invariant publicKey)
    (hrow : RowChange s.store.row store'.row) (hcache : CacheChange c pc s.cache cache')
    (hfresh : ∀ secret, pc.uses c = some secret → s.store.row = some secret.1) :
    (s.replace store' cache').Invariant publicKey := by
  -- an empty row stays empty and nothing is cached, unless a create commits
  have hclosed (h : s.closed = true) : cache' = none := by
    obtain ⟨hempty, hnone⟩ := hs.closed h
    cases hcache with
    | same => exact hnone
    | evict => rfl
    | insert huses => cases hempty.symm.trans (hfresh _ huses)
  rcases replace_cases hrow cache' with ⟨hsame, hc, hd, hcl⟩ | ⟨hnone, hc, hd, hcl⟩ |
    ⟨hsome, hc, hd, hcl⟩
  · refine ⟨fun h => ?_, fun l hl key hkey => ?_, hs.agree, fun id task n hid hn => ?_, hs.loaded⟩
    · rw [hcl] at h
      exact ⟨hsame.trans (hs.closed h).1, hclosed h⟩
    · obtain ⟨hle, hlast⟩ := hs.present l hl key hkey
      rw [hd]
      refine ⟨hle, fun heq => ?_⟩
      obtain ⟨secret, hsecret, hpublic⟩ := hlast heq
      exact ⟨secret, hsame.trans hsecret, hpublic⟩
    · rw [hc, hcl]
      exact hs.shut id task n hid hn
  · refine ⟨fun h => ?_, fun l hl key hkey => ?_, hs.agree, fun id task n hid hn => ?_, hs.loaded⟩
    · rw [hcl] at h
      cases h
    · obtain ⟨hle, hlast⟩ := hs.present l hl key hkey
      rw [hd]
      refine ⟨hle, fun heq => ?_⟩
      obtain ⟨secret, hsecret, -⟩ := hlast heq
      cases hnone.symm.trans hsecret
    · have hle := (hs.shut id task n hid hn).1
      rw [hc]
      exact ⟨by omega, fun heq => by omega⟩
  · refine ⟨fun h => ?_, fun l hl key hkey => ?_, hs.agree, fun id task n hid hn => ?_, hs.loaded⟩
    · rw [hcl] at h
      exact absurd (hs.closed h).1 hsome
    · have hle := (hs.present l hl key hkey).1
      rw [hd]
      exact ⟨by omega, fun heq => by omega⟩
    · rw [hc, hcl]
      exact hs.shut id task n hid hn

lemma of_update_task {tasks : ℕ → Option Task} {id j : ℕ} {entry : Option Task} {task : Task}
    (h : Function.update tasks id entry j = some task) : entry = some task ∨ tasks j =
      some task := by
  by_cases hj : j = id
  · subst hj
    rw [Function.update_self] at h
    exact .inl h
  · rw [Function.update_of_ne hj] at h
    exact .inr h

section

variable (hs : s.Invariant publicKey)
include hs

lemma Invariant.start (id : ℕ) (call : Call) :
    (s.step sha256 publicKey (.start id call)).Invariant publicKey := by
  cases hid : s.tasks id with
  | some task => simpa only [step, hid] using hs
  | none =>
    simp only [step, hid]
    refine { hs with shut := fun j task n hj hn => ?_ }
    rcases of_update_task hj with hnew | hold
    · cases hnew
      unfold startedShut at hn
      split_ifs at hn with hclosed
      cases hn
      exact ⟨le_rfl, fun _ => ⟨hclosed, by cases call <;> trivial⟩⟩
    · exact hs.shut j task n hold hn

lemma Invariant.act {id : ℕ} (hfresh : s.Fresh (.act id c)) :
    (s.step sha256 publicKey (.act id c)).Invariant publicKey := by
  cases hid : s.tasks id with
  | none => simpa only [step, hid] using hs
  | some task =>
    have huses (secret : Seed) (h : task.pc.uses c = some secret) :
        s.store.row = some secret.1 := by
      refine hfresh secret ?_
      rw [uses, hid]
      exact h
    simp only [step, hid]
    have hspec : ActSpec publicKey c s.store s.cache task.pc
        (Metadata.act sha256 publicKey c s.store s.cache task.pc) := act_spec
    generalize Metadata.act sha256 publicKey c s.store s.cache task.pc = result at hspec
    obtain ⟨store', cache', outcome⟩ := result
    have hafter := hs.replace hspec.row hspec.change huses
    cases outcome with
    | next pc =>
      refine { hafter with shut := fun j other n hj hn => ?_ }
      rcases of_update_task hj with hnew | hold
      · cases hnew
        obtain ⟨hle, hlast⟩ := hafter.shut id task n hid hn
        refine ⟨hle, fun heq => ⟨(hlast heq).1, ?_⟩⟩
        cases pc with
        | get op revision row =>
          -- the snapshot was taken now, of the row a closed store has
          rw [Pc.Barren, hspec.snapshot op revision row rfl]
          have hcloses : s.closed = true := by
            have hstill := (hlast heq).1
            simp only [Custody.replace, Bool.and_eq_true] at hstill
            exact hstill.1
          exact (hs.closed hcloses).1
        | _ => trivial
      · exact hafter.shut j other n hold hn
    | answer value =>
      obtain ⟨hstore, hreturned⟩ := hspec.answered value rfl
      obtain rfl : store' = s.store := hstore
      refine ⟨fun h => ?_, fun l hl key hkey => ?_, fun l hl l' hl' heq key key' hkey hkey' => ?_,
        fun j other n hj hn => ?_, fun l hl hshut key hkey => ?_⟩
      · rcases Bool.or_eq_true_iff.mp h with h | h
        · exact hafter.closed h
        · obtain ⟨hdeleted, hrow⟩ := Bool.and_eq_true_iff.mp h
          exact ⟨Option.isNone_iff_eq_none.mp hrow, hreturned.deleted hdeleted⟩
      · rcases List.mem_cons.mp hl with rfl | hl
        · obtain ⟨secret, huse, hpublic⟩ := hreturned.present key hkey
          exact ⟨le_rfl, fun _ => ⟨secret, huses secret huse, hpublic⟩⟩
        · exact hafter.present l hl key hkey
      · -- the new answer names the key in the row, as do the old ones since the last deletion
        have hnew {l : Logged} (hl : l ∈ s.answers)
            (hd : l.deletions = (s.replace s.store cache').deletions) {key key' : PublicKey}
            (hold : l.answer = .created (.ok (.present key)))
            (hkey : value = .created (.ok (.present key'))) : key = key' := by
          obtain ⟨secret, hrow, rfl⟩ := (hafter.present l hl key hold).2 hd
          obtain ⟨other, huse, rfl⟩ := hreturned.present key' hkey
          have hsame := Option.some.inj (hrow.symm.trans (huses other huse))
          rw [Subtype.ext hsame]
        rcases List.mem_cons.mp hl with rfl | hl <;> rcases List.mem_cons.mp hl' with rfl | hl'
        · have hsame := hkey.symm.trans hkey'
          cases hsame
          rfl
        · exact (hnew hl' heq.symm hkey' hkey).symm
        · exact hnew hl heq hkey hkey'
        · exact hs.agree l hl l' hl' heq key key' hkey hkey'
      · rcases of_update_task hj with hnone | hold
        · cases hnone
        · obtain ⟨hle, hlast⟩ := hafter.shut j other n hold hn
          exact ⟨hle, fun heq => ⟨Bool.or_eq_true_iff.mpr (.inl (hlast heq).1), (hlast heq).2⟩⟩
      · rcases List.mem_cons.mp hl with rfl | hl
        · obtain ⟨hcloses, hbarren⟩ := (hafter.shut id task _ hid hshut).2 rfl
          have hclosed : s.closed = true := by
            simp only [Custody.replace, Bool.and_eq_true] at hcloses
            exact hcloses.1
          rcases hreturned.loaded key hkey with hcached | ⟨op, revision, row, hpc⟩
          · exact hcached (hs.closed hclosed).2
          · rw [hpc] at hbarren
            cases hbarren
        · exact hs.loaded l hl hshut key hkey

lemma Invariant.step {action : Action} (hfresh : s.Fresh action) :
    (s.step sha256 publicKey action).Invariant publicKey := by
  cases action with
  | start id call => exact hs.start id call
  | act id choice => exact hs.act hfresh
  | traffic => exact { hs with }

end

structure DeletedStops (sha256 : Hash) (publicKey : Seed → PublicKey) (s : Custody)
    (actions : List Action) : Prop where
  agree : ∀ l ∈ (s.run sha256 publicKey actions).answers,
    ∀ l' ∈ (s.run sha256 publicKey actions).answers, l.deletions = l'.deletions → ∀ key key',
    l.answer = .created (.ok (.present key)) → l'.answer = .created (.ok (.present key')) →
    key = key'
  /-- A call that starts after a delete returned, and answers before a create commits, loads no
  key. -/
  stops : ∀ l ∈ (s.run sha256 publicKey actions).answers, l.shut = some l.creations →
    ∀ key, l.answer ≠ .loaded (.ok key)
  coherent : ∀ before after, actions = before ++ after →
    (s.run sha256 publicKey before).closed = true →
    (s.run sha256 publicKey before).store.row = none ∧
      (s.run sha256 publicKey before).cache = none

end Custody

/-- **A deleted key stops signing**, in every run in which the row still holds the seed whenever
a call caches or reports one: for any calls, any failures of the store and any first row. -/
theorem deleted_stops_of_fresh (sha256 : Hash) (publicKey : Seed → PublicKey)
    (row : Option StoreValue) (actions : List Action)
    (hfresh : EveryStep (Custody.step sha256 publicKey) Custody.Fresh (.opened row) actions) :
    Custody.DeletedStops sha256 publicKey (.opened row) actions := by
  have hinv (before after : List Action) (hcut : actions = before ++ after) :
      ((Custody.opened row).run sha256 publicKey before).Invariant publicKey :=
    invariant_of_run (Custody.invariant_opened row) (fun before action after hsplit hs =>
      hs.step (hfresh before action after hsplit)) before after hcut
  have hend := hinv actions [] (List.append_nil _).symm
  exact ⟨hend.agree, hend.loaded, fun before after hcut => (hinv before after hcut).closed⟩

/-! ## Runs with a delete -/

def sampleSeed (byte : UInt8) : Seed := seedOf byte

def acts (id : ℕ) (byte : UInt8) (count : ℕ) : List Action :=
  List.replicate count (.act id ⟨sampleSeed byte, none, true, false⟩)

def inTurn : List Action :=
  .start 0 .create :: acts 0 1 4 ++ .start 1 .sign :: acts 1 1 1 ++
    .start 2 .delete :: acts 2 1 4 ++ .start 3 .sign :: acts 3 1 3

def lateCreator : List Action :=
  .start 0 .create :: acts 0 1 3 ++ .start 1 .delete :: acts 1 1 4 ++ acts 0 1 1

theorem deleted_stops_inTurn :
    Custody.DeletedStops zeroHash id (.opened none) inTurn ∧
      ((Custody.opened none).run zeroHash id inTurn).answers.map Logged.answer =
        [.loaded (.error ⟨.storageCorrupt, "key sign"⟩), .deleted (.ok .present),
          .loaded (.ok (sampleSeed 1)), .created (.ok (.present (sampleSeed 1)))] :=
  ⟨deleted_stops_of_fresh zeroHash id none inTurn (by decide +kernel), by decide +kernel⟩

/-- After the delete returned and the creator went on, a signature succeeds with the deleted
key; and a second create reports another key between the same two deletions. -/
theorem late_creator_revives_key :
    ((Custody.opened none).run zeroHash id
        (lateCreator ++ .start 2 .sign :: acts 2 1 1)).answers.head? =
        some ⟨some 1, 1, 1, .loaded (.ok (sampleSeed 1))⟩ ∧
      ((Custody.opened none).run zeroHash id lateCreator).store.row = none ∧
      ((Custody.opened none).run zeroHash id
        (lateCreator ++ .start 2 .create :: acts 2 2 4)).answers =
        [⟨some 1, 2, 1, .created (.ok (.present (sampleSeed 2)))⟩,
          ⟨none, 1, 1, .created (.ok (.present (sampleSeed 1)))⟩,
          ⟨none, 1, 1, .deleted (.ok .present)⟩] := by
  refine ⟨by decide +kernel, by decide +kernel, by decide +kernel⟩

end Radiata.Keys.Metadata
