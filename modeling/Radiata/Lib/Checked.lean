import Mathlib

/-!
# Checked computations

When a computation that can fail succeeds: a sequence when both of its parts do, a loop of
checks when every check does, and a loop with an accumulator when an invariant can be
carried along it.
-/

namespace Radiata.Lib.Checked

variable {ε α β : Type}

lemma bind_ok_iff {x : Except ε α} {f : α → Except ε β} {b : β} :
    (x >>= f) = .ok b ↔ ∃ a, x = .ok a ∧ f a = .ok b := by
  cases x with
  | error e | ok a => simp [bind, Except.bind]

lemma bind_of_ok (a : α) (f : α → Except ε β) : (Except.ok a >>= f) = f a := rfl

def ensure (condition : Prop) [Decidable condition] (error : ε) : Except ε Unit :=
  if condition then .ok () else .error error

variable {condition : Prop} {error : ε}

@[simp] lemma ensure_eq_ok [Decidable condition] {u : Unit} :
    ensure condition error = .ok u ↔ condition := by
  unfold ensure
  split_ifs with h <;> simp [h]

lemma ensure_bind_eq_ok [Decidable condition] {f : Unit → Except ε β} {b : β} :
    (ensure condition error >>= f) = .ok b ↔ condition ∧ f () = .ok b := by
  rw [bind_ok_iff]
  constructor
  · rintro ⟨u, h, hf⟩
    exact ⟨ensure_eq_ok.mp h, hf⟩
  · rintro ⟨h, hf⟩
    exact ⟨(), ensure_eq_ok.mpr h, hf⟩

lemma ensure_bind [Decidable condition] (h : condition) (f : Unit → Except ε β) :
    (ensure condition error >>= f) = f () := by
  rw [ensure_eq_ok.mpr h, bind_of_ok]

def orError (value : Option α) (error : ε) : Except ε α :=
  match value with
  | some a => .ok a
  | none => .error error

lemma orError_eq_ok {value : Option α} {a : α} :
    orError value error = .ok a ↔ value = some a := by
  cases value with
  | none | some b => simp [orError]

lemma exists_eq_ok {x : Except ε α} (h : x.isOk = true) : ∃ a, x = .ok a := by
  cases x with
  | error e => cases h
  | ok a => exact ⟨a, rfl⟩

lemma mapM_map_eq_ok {read : β → Except ε α} {write : α → β} (h : ∀ a, read (write a) = .ok a)
    (l : List α) : (l.map write).mapM read = .ok l := by
  induction l with
  | nil => rfl
  | cons a l ih =>
    rw [List.map_cons, List.mapM_cons, h, bind_of_ok, ih]
    rfl

def replaceError {ε' : Type} (x : Except ε' α) (error : ε) : Except ε α :=
  match x with
  | .ok a => .ok a
  | .error _ => .error error

lemma replaceError_eq_ok {ε' : Type} {x : Except ε' α} {a : α} :
    replaceError x error = .ok a ↔ x = .ok a := by
  cases x with
  | error e | ok b => simp [replaceError]

lemma forM_eq_ok {f : α → Except ε Unit} {l : List α} :
    forM l f = .ok () ↔ ∀ a ∈ l, f a = .ok () := by
  induction l with
  | nil => exact ⟨fun _ _ h => absurd h List.not_mem_nil, fun _ => rfl⟩
  | cons a l ih =>
    rw [List.forM_cons, bind_ok_iff, List.forall_mem_cons, ← ih]
    exact ⟨fun ⟨_, ha, hl⟩ => ⟨ha, hl⟩, fun ⟨ha, hl⟩ => ⟨(), ha, hl⟩⟩

end Radiata.Lib.Checked
