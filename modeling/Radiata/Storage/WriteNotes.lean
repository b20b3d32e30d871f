import Radiata.Reconcile.Wire

/-!
# Write notes

A committed write is noted in the store's register: the epoch advances, and the note is
kept under the family it landed in, or as untracked when it names none.  A reader asks for
the families noted past an epoch.

A write commits one transaction and answers with the families it noted.
-/

namespace Radiata.Storage

open Reconcile

inductive Family where
  | nodeDescriptor
  | identityBinding
  | resourceRecord
  | leave
  | cleanup
  | revocation
  | checkpoint
deriving DecidableEq

namespace Family

def all : List Family :=
  [nodeDescriptor, identityBinding, resourceRecord, leave, cleanup, revocation, checkpoint]

lemma mem_all (family : Family) : family ∈ all := by cases family <;> decide

end Family

def namespaces : LaneId → List Family
  | .descriptors => [.nodeDescriptor]
  | .trust => [.identityBinding]
  | .resources => [.resourceRecord]
  | .tombstones => [.leave, .cleanup, .revocation, .checkpoint]

def laneOfNamespace (family : Family) : Option LaneId :=
  LaneId.all.find? fun lane => family ∈ namespaces lane

variable {family : Family}

lemma laneOfNamespace_eq_some {lane : LaneId} :
    laneOfNamespace family = some lane ↔ family ∈ namespaces lane := by
  cases family <;> cases lane <;> decide

/-- The write register: the epoch counter, the epoch of each family's latest note (zero for
none) and that of the latest untracked note. -/
structure WriteNotes where
  registerEpoch : ℕ
  namespaceEpochs : Family → ℕ
  untrackedEpoch : ℕ

namespace WriteNotes

def new : WriteNotes := ⟨0, fun _ => 0, 0⟩

section

variable (notes : WriteNotes)

def noteLocalWrite : WriteNotes :=
  let epoch := notes.registerEpoch + 1
  { notes with registerEpoch := epoch, untrackedEpoch := max notes.untrackedEpoch epoch }

def noteLocalWriteIn (family : Family) : WriteNotes :=
  let epoch := notes.registerEpoch + 1
  { notes with
    registerEpoch := epoch
    namespaceEpochs := Function.update notes.namespaceEpochs family epoch }

def dirtyNamespacesSince (since : ℕ) : List Family × Option ℕ :=
  (Family.all.filter fun family => since < notes.namespaceEpochs family,
    if since < notes.untrackedEpoch then some notes.untrackedEpoch else none)

end

variable {notes : WriteNotes} {family : Family} {since : ℕ}

lemma namespaceEpochs_noteLocalWriteIn_self :
    (notes.noteLocalWriteIn family).namespaceEpochs family = notes.registerEpoch + 1 :=
  Function.update_self ..

lemma namespaceEpochs_noteLocalWriteIn_of_ne {other : Family} (h : other ≠ family) :
    (notes.noteLocalWriteIn family).namespaceEpochs other = notes.namespaceEpochs other :=
  Function.update_of_ne h ..

lemma mem_dirtyNamespacesSince :
    family ∈ (notes.dirtyNamespacesSince since).1 ↔ since < notes.namespaceEpochs family := by
  simp [dirtyNamespacesSince, family.mem_all]

lemma dirtyNamespacesSince_untracked :
    (notes.dirtyNamespacesSince since).2.isSome = true ↔ since < notes.untrackedEpoch := by
  unfold dirtyNamespacesSince
  split_ifs with h <;> simp [h]

end WriteNotes

/-! ## Commits -/

inductive CommitEnd where
  | committed
  | conflict
  | aborted
  | unknown (applied : Bool)

def commitUnknown : Error := ⟨.commitUnknown, "storage commit"⟩

structure Commit (σ α : Type) where
  store : σ
  noted : List Family
  answer : Result α

def Commit.none {σ α : Type} (store : σ) (answer : Result α) : Commit σ α := ⟨store, [], answer⟩

def commitEach {σ α β : Type} (write : σ → α → Commit σ β) : σ → List α → Commit σ (List β)
  | store, [] => .none store (.ok [])
  | store, a :: as =>
    let commit := write store a
    match commit.answer with
    | .error e => ⟨commit.store, commit.noted, .error e⟩
    | .ok b =>
      let rest := commitEach write commit.store as
      ⟨rest.store, commit.noted ++ rest.noted, rest.answer.map (b :: ·)⟩

def NotesChanges {σ α : Type} (family : Family) (store : σ) (commit : Commit σ α) : Prop :=
  commit.store ≠ store → family ∈ commit.noted

lemma NotesChanges.none {σ α : Type} {store : σ} {answer : Result α} :
    NotesChanges family store (Commit.none store answer) := fun h => absurd rfl h

lemma commitEach_notes {σ α β : Type} {write : σ → α → Commit σ β}
    (h : ∀ store a, NotesChanges family store (write store a)) (store : σ) (as : List α) :
    NotesChanges family store (commitEach write store as) := by
  induction as generalizing store with
  | nil => exact .none
  | cons a as ih =>
    unfold commitEach
    dsimp only
    split
    · exact h store a
    · intro hchanged
      by_cases hfirst : (write store a).store = store
      · rw [hfirst] at hchanged ⊢
        exact List.mem_append_right _ (ih store hchanged)
      · exact List.mem_append_left _ (h store a hfirst)

end Radiata.Storage
