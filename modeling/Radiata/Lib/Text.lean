import Mathlib

/-!
# Text

Text as a list of scalar values, with its length in UTF-8 bytes and the Unicode
white-space property.  Comparing two texts scalar by scalar is comparing their
UTF-8 bytes, since the encoding keeps the order.

`canon` is the canonical form of a finite set of texts (or of any ordered values)
that arrives as a list: sorted, with runs of equal neighbours collapsed.  It depends
on the set alone.
-/

namespace Radiata.Lib

abbrev Text := List Char

def utf8Len (t : Text) : ℕ := (t.map Char.utf8Size).sum

@[simp] lemma utf8Len_nil : utf8Len [] = 0 := rfl

@[simp] lemma utf8Len_cons (c : Char) (t : Text) : utf8Len (c :: t) = c.utf8Size + utf8Len t := by
  simp [utf8Len]

@[simp] lemma utf8Len_append (s t : Text) : utf8Len (s ++ t) = utf8Len s + utf8Len t := by
  simp [utf8Len]

def isWhitespace (c : Char) : Bool :=
  (0x09 ≤ c.toNat && c.toNat ≤ 0x0D) || c.toNat == 0x20 || c.toNat == 0x85 || c.toNat == 0xA0 ||
    c.toNat == 0x1680 || (0x2000 ≤ c.toNat && c.toNat ≤ 0x200A) || c.toNat == 0x2028 ||
    c.toNat == 0x2029 || c.toNat == 0x202F || c.toNat == 0x205F || c.toNat == 0x3000

def Blank (t : Text) : Prop := ∀ c ∈ t, isWhitespace c = true

lemma Blank.nil : Blank [] := fun _ h => absurd h List.not_mem_nil

lemma dropWhile_append_of_blank {ws : Text} (h : Blank ws) (t : Text) :
    (ws ++ t).dropWhile isWhitespace = t.dropWhile isWhitespace := by
  induction ws with
  | nil => rfl
  | cons c ws ih =>
    rw [List.cons_append, List.dropWhile_cons_of_pos (h c List.mem_cons_self)]
    exact ih fun d hd => h d (List.mem_cons_of_mem _ hd)

lemma exists_map_eq {α β : Type*} {f : α → β} {P : α → Prop} {bs : List β}
    (h : ∀ b ∈ bs, ∃ a, P a ∧ f a = b) : ∃ as : List α, as.map f = bs ∧ ∀ a ∈ as, P a := by
  induction bs with
  | nil => exact ⟨[], rfl, fun _ h => absurd h List.not_mem_nil⟩
  | cons b bs ih =>
    obtain ⟨a, ha, rfl⟩ := h b List.mem_cons_self
    obtain ⟨as, rfl, has⟩ := ih fun b hb => h b (List.mem_cons_of_mem _ hb)
    exact ⟨a :: as, rfl, by simpa using ⟨ha, has⟩⟩

/-! ## Canonical lists -/

section Canon

variable {α : Type*} [LinearOrder α]

def canon (l : List α) : List α := (l.insertionSort (· ≤ ·)).destutter (· ≠ ·)

variable (l : List α)

lemma canon_eq_dedup : canon l = (l.insertionSort (· ≤ ·)).dedup :=
  (List.pairwise_insertionSort (· ≤ ·) l).destutter_eq_dedup

@[simp] lemma mem_canon {l : List α} {a : α} : a ∈ canon l ↔ a ∈ l := by
  rw [canon_eq_dedup, List.mem_dedup, List.mem_insertionSort]

lemma canon_sublist : (canon l).Sublist (l.insertionSort (· ≤ ·)) := by
  rw [canon_eq_dedup]
  exact List.dedup_sublist _

lemma length_canon_le : (canon l).length ≤ l.length := by
  rw [← List.length_insertionSort (· ≤ ·) l]
  exact (canon_sublist l).length_le

lemma pairwise_lt_canon : (canon l).Pairwise (· < ·) := by
  rw [canon_eq_dedup]
  have hle : (l.insertionSort (· ≤ ·)).dedup.Pairwise (· ≤ ·) :=
    (List.pairwise_insertionSort (· ≤ ·) l).sublist (List.dedup_sublist _)
  have hne : (l.insertionSort (· ≤ ·)).dedup.Pairwise (· ≠ ·) := List.nodup_dedup _
  exact (hle.and hne).imp fun h => lt_of_le_of_ne h.1 h.2

lemma canon_congr {l l' : List α} (h : ∀ a, a ∈ l ↔ a ∈ l') : canon l = canon l' := by
  have hperm : (canon l).Perm (canon l') :=
    (List.perm_ext_iff_of_nodup ((pairwise_lt_canon l).imp ne_of_lt)
      ((pairwise_lt_canon l').imp ne_of_lt)).mpr fun a => by simp [h]
  exact hperm.eq_of_pairwise (fun a b _ _ hab hba => absurd (hab.trans hba) (lt_irrefl a))
    (pairwise_lt_canon l) (pairwise_lt_canon l')

@[simp] lemma canon_canon : canon (canon l) = canon l :=
  canon_congr fun _ => mem_canon

lemma canon_eq_nil {l : List α} : canon l = [] ↔ l = [] := by
  rw [List.eq_nil_iff_forall_not_mem, List.eq_nil_iff_forall_not_mem]
  simp only [mem_canon]

end Canon

end Radiata.Lib
