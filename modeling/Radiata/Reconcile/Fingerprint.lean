import Radiata.Lib.Word

/-!
# The range fingerprint

The aggregate of a set of item digests: how many there are and their
exclusive-or.  The pair is an abelian group under `combine`, and the instance
below says so, so that the aggregates of a range are ordinary sums and a range
fingerprint is an ordinary difference of two prefixes.
-/

namespace Radiata.Reconcile

open Lib

@[ext]
structure Fingerprint where
  count : UInt64
  xor : UInt64
deriving DecidableEq, Repr

namespace Fingerprint

def empty : Fingerprint := ⟨0, 0⟩

def singleton (digest : UInt64) : Fingerprint := ⟨1, digest⟩

def combine (self other : Fingerprint) : Fingerprint :=
  ⟨self.count + other.count, self.xor ^^^ other.xor⟩

def remove (self other : Fingerprint) : Fingerprint :=
  ⟨self.count - other.count, self.xor ^^^ other.xor⟩

/-- The inverse element: the count negates and the exclusive-or is its own
inverse. -/
def inverse (self : Fingerprint) : Fingerprint := ⟨-self.count, self.xor⟩

instance : Zero Fingerprint := ⟨empty⟩

instance : Add Fingerprint := ⟨combine⟩

instance : Neg Fingerprint := ⟨inverse⟩

instance : Sub Fingerprint := ⟨remove⟩

instance : AddCommGroup Fingerprint where
  nsmul := nsmulRec
  zsmul := zsmulRec
  add_assoc a b c := by
    change combine (combine a b) c = combine a (combine b c)
    simp only [combine, add_assoc, UInt64.xor_assoc]
  zero_add a := by
    change combine empty a = a
    simp [combine, empty]
  add_zero a := by
    change combine a empty = a
    simp [combine, empty]
  neg_add_cancel a := by
    change combine (inverse a) a = empty
    simp [combine, inverse, empty]
  add_comm a b := by
    change combine a b = combine b a
    simp only [combine, add_comm, UInt64.xor_comm]
  sub_eq_add_neg a b := by
    change remove a b = combine a (inverse b)
    simp only [remove, combine, inverse, sub_eq_add_neg]

variable (a b : Fingerprint)

lemma remove_eq_sub : remove a b = a - b := rfl

@[simp] lemma count_add : (a + b).count = a.count + b.count := rfl

@[simp] lemma xor_add : (a + b).xor = a.xor ^^^ b.xor := rfl

def ofDigests (digests : List UInt64) : Fingerprint := (digests.map singleton).sum

@[simp] lemma ofDigests_nil : ofDigests [] = 0 := rfl

@[simp] lemma ofDigests_cons (d : UInt64) (ds : List UInt64) :
    ofDigests (d :: ds) = singleton d + ofDigests ds := by
  simp [ofDigests]

@[simp] lemma ofDigests_append (as bs : List UInt64) :
    ofDigests (as ++ bs) = ofDigests as + ofDigests bs := by
  simp [ofDigests]

variable (ds : List UInt64)

lemma count_ofDigests : (ofDigests ds).count = UInt64.ofNat ds.length := by
  induction ds with
  | nil => rfl
  | cons d ds ih =>
    rw [ofDigests_cons, count_add, ih, List.length_cons, UInt64.ofNat_add, add_comm]
    rfl

lemma xor_ofDigests : (ofDigests ds).xor = ds.foldr (· ^^^ ·) 0 := by
  induction ds with
  | nil => rfl
  | cons d ds ih =>
    rw [ofDigests_cons, xor_add, ih]
    rfl

lemma ofDigests_eq : ofDigests ds = ⟨UInt64.ofNat ds.length, ds.foldr (· ^^^ ·) 0⟩ :=
  Fingerprint.ext (count_ofDigests ds) (xor_ofDigests ds)

end Fingerprint

end Radiata.Reconcile
