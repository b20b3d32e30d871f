import Mathlib

/-!
# Errors

The crate's error: a stable category and a fixed context text.  A fallible
function of the source is a function into `Result`.
-/

namespace Radiata

instance neZero2 : NeZero 2 := ⟨by simp⟩
instance neZero3 : NeZero 3 := ⟨by simp⟩
instance neZero4 : NeZero 4 := ⟨by simp⟩
instance neZero6 : NeZero 6 := ⟨by simp⟩
instance neZero10 : NeZero 10 := ⟨by simp⟩

inductive ErrorKind where
  | invalidInput
  | conflict
  | notFound
  | notReady
  | notTrusted
  | revoked
  | unsupported
  | unsupportedSchema
  | unsupportedCapability
  | authenticationFailed
  | routeUnavailable
  | streamInterrupted
  | overloaded
  | frameTooLarge
  | resourceExhausted
  | storageLocked
  | storageCorrupt
  | permissionDenied
  | io
  | commitUnknown
  | cancelled
  | shuttingDown
  | callerError
  | internal
deriving DecidableEq, Repr

structure Error where
  kind : ErrorKind
  context : String
deriving DecidableEq, Repr

namespace Error

variable (context : String)

def invalidInput : Error := ⟨.invalidInput, context⟩

def conflict : Error := ⟨.conflict, context⟩

def resourceExhausted : Error := ⟨.resourceExhausted, context⟩

def notFound : Error := ⟨.notFound, context⟩

def notTrusted : Error := ⟨.notTrusted, context⟩

def revoked : Error := ⟨.revoked, context⟩

def authenticationFailed : Error := ⟨.authenticationFailed, context⟩

end Error

abbrev Result (α : Type*) := Except Error α

def require (condition : Prop) [Decidable condition] (error : Error) : Result Unit :=
  if condition then .ok () else .error error

@[simp] lemma require_eq_ok {condition : Prop} [Decidable condition] {error : Error} {u : Unit} :
    require condition error = .ok u ↔ condition := by
  unfold require
  split_ifs with h <;> simp [h]

def orInvalid {α : Type*} (value : Option α) (context : String) : Result α :=
  match value with
  | some a => .ok a
  | none => .error (.invalidInput context)

@[simp] lemma orInvalid_some {α : Type*} (a : α) (context : String) :
    orInvalid (some a) context = .ok a := rfl

lemma orInvalid_eq_ok {α : Type*} {value : Option α} {context : String} {a : α} :
    orInvalid value context = .ok a ↔ value = some a := by
  cases value with
  | none | some b => simp [orInvalid]

variable {α β : Type} {x : Result α}

lemma bind_eq_ok {f : α → Result β} {b : β} :
    (x >>= f) = .ok b ↔ ∃ a, x = .ok a ∧ f a = .ok b := by
  cases x with
  | error e | ok a => simp [bind, Except.bind]

lemma require_bind_eq_ok {condition : Prop} [Decidable condition] {error : Error}
    {f : Unit → Result α} {a : α} :
    (require condition error >>= f) = .ok a ↔ condition ∧ f () = .ok a := by
  rw [bind_eq_ok]
  constructor
  · rintro ⟨u, h, hf⟩
    exact ⟨require_eq_ok.mp h, hf⟩
  · rintro ⟨h, hf⟩
    exact ⟨(), require_eq_ok.mpr h, hf⟩

lemma map_eq_ok {f : α → β} {b : β} : Except.map f x = .ok b ↔ ∃ a, x = .ok a ∧ f a = b := by
  cases x with
  | error e | ok a => simp [Except.map]

@[simp] lemma ok_bind (a : α) (f : α → Result β) : ((Except.ok a : Result α) >>= f) = f a := rfl

lemma pure_eq_ok (a : α) : (pure a : Result α) = .ok a := rfl

lemma error_bind (e : Error) (f : α → Result β) :
    ((Except.error e : Result α) >>= f) = .error e := rfl

end Radiata
