import Mathlib

/-!
# Registers that keep the best candidate

A slot holds at most one value.  A candidate takes an empty slot, and takes an occupied
one exactly when its rank is strictly lower.  What a slot holds after a sequence of
candidates is therefore the first one of least rank: when there is only one such value
the sequence's order and repetitions do not matter, and when there are two the order
decides.

`settled` reads the candidates off a sequence of rows, one register per key.
-/

namespace Radiata.Lib

variable {α κ : Type*} [LinearOrder κ] (rank : α → κ)

def keep : Option α → α → Option α
  | none, a => some a
  | some b, a => if rank a < rank b then some a else some b

def settle (l : List α) : Option α := l.foldl (keep rank) none

def Least (l : List α) (a : α) : Prop := a ∈ l ∧ ∀ x ∈ l, rank a ≤ rank x

@[simp] lemma settle_nil : settle rank [] = none := rfl

lemma settle_concat (l : List α) (a : α) : settle rank (l ++ [a]) = keep rank
    (settle rank l) a := by
  rw [settle, List.foldl_append]
  rfl

variable {rank}

lemma keep_ne_none (slot : Option α) (a : α) : keep rank slot a ≠ none := by
  cases slot with
  | none => exact Option.some_ne_none a
  | some b =>
    rw [keep]
    split_ifs <;> exact Option.some_ne_none _

variable {l : List α}

lemma settle_eq_none : settle rank l = none ↔ l = [] := by
  cases l using List.reverseRecOn with
  | nil => simp
  | append_singleton l a => simp [settle_concat, keep_ne_none]

variable {a : α}

lemma settle_split (h : settle rank l = some a) :
    ∃ before after, l = before ++ a :: after ∧ (∀ x ∈ before, rank a < rank x) ∧
      ∀ x ∈ after, rank a ≤ rank x := by
  induction l using List.reverseRecOn generalizing a with
  | nil => cases h
  | append_singleton l b ih =>
    rw [settle_concat] at h
    cases hl : settle rank l with
    | none =>
      rw [hl] at h
      obtain rfl : b = a := Option.some.inj h
      obtain rfl := settle_eq_none.mp hl
      exact ⟨[], [], rfl, by simp, by simp⟩
    | some c =>
      obtain ⟨before, after, rfl, hbefore, hafter⟩ := ih hl
      rw [hl, keep] at h
      split_ifs at h with hlt
      · obtain rfl : b = a := Option.some.inj h
        refine ⟨before ++ c :: after, [], rfl, fun x hx => ?_, by simp⟩
        rcases List.mem_append.mp hx with hx | hx
        · exact hlt.trans (hbefore x hx)
        · rcases List.mem_cons.mp hx with rfl | hx
          · exact hlt
          · exact hlt.trans_le (hafter x hx)
      · obtain rfl : c = a := Option.some.inj h
        refine ⟨before, after ++ [b], by simp, hbefore, fun x hx => ?_⟩
        rcases List.mem_append.mp hx with hx | hx
        · exact hafter x hx
        · rw [List.mem_singleton.mp hx]
          exact not_lt.mp hlt

lemma settle_spec (h : settle rank l = some a) : Least rank l a := by
  obtain ⟨before, after, rfl, hbefore, hafter⟩ := settle_split h
  refine ⟨by simp, fun x hx => ?_⟩
  rcases List.mem_append.mp hx with hx | hx
  · exact (hbefore x hx).le
  · exact (List.mem_cons.mp hx).elim (fun hx => hx ▸ le_rfl) (hafter x)

/-- **Order and repetition do not matter** when a single value has least rank. -/
theorem settle_congr {l' : List α} (hmem : ∀ a, a ∈ l ↔ a ∈ l')
    (h : ∀ a b, Least rank l a → Least rank l b → a = b) : settle rank l = settle rank l' := by
  have hleast (a : α) : Least rank l' a ↔ Least rank l a := by simp only [Least, hmem]
  cases hl : settle rank l with
  | none =>
    obtain rfl := settle_eq_none.mp hl
    have hnil : l' = [] := List.eq_nil_iff_forall_not_mem.mpr fun a ha =>
      absurd ((hmem a).mpr ha) List.not_mem_nil
    rw [hnil, settle_nil]
  | some a =>
    cases hl' : settle rank l' with
    | none =>
      obtain rfl := settle_eq_none.mp hl'
      exact absurd ((hmem a).mp (settle_spec hl).1) List.not_mem_nil
    | some b => rw [h a b (settle_spec hl) ((hleast b).mp (settle_spec hl'))]

lemma settle_cons_of_least (h : ∀ x ∈ l, rank a ≤ rank x) : settle rank (a :: l) = some a := by
  induction l using List.reverseRecOn with
  | nil => rfl
  | append_singleton l b ih =>
    have hl := ih fun x hx => h x (List.mem_append_left _ hx)
    have hb : rank a ≤ rank b := h b (by simp)
    rw [← List.cons_append, settle_concat, hl, keep, if_neg (not_lt.mpr hb)]

lemma settle_map {β : Type*} (f : β → α) (l : List β) :
    settle rank (l.map f) = (settle (rank ∘ f) l).map f := by
  induction l using List.reverseRecOn with
  | nil => rfl
  | append_singleton l b ih =>
    rw [List.map_append, List.map_singleton, settle_concat, settle_concat, ih]
    cases settle (rank ∘ f) l with
    | none => rfl
    | some c =>
      rw [Option.map_some, keep, keep, Function.comp_apply, Function.comp_apply,
        apply_ite (Option.map f)]
      rfl

/-! ## Candidates of a sequence of rows -/

section Rows

variable {ρ : Type*}

def settled (rank : α → κ) (candidate : ρ → Option α) (rows : List ρ) : Option α :=
  settle rank (rows.filterMap candidate)

variable {candidate : ρ → Option α} {row : ρ}

lemma settled_concat_none (h : candidate row = none) (rows : List ρ) :
    settled rank candidate (rows ++ [row]) = settled rank candidate rows := by
  rw [settled, List.filterMap_append, List.filterMap_cons_none h, List.filterMap_nil,
    List.append_nil]
  rfl

lemma settled_concat_some (h : candidate row = some a) (rows : List ρ) :
    settled rank candidate (rows ++ [row]) = keep rank (settled rank candidate rows) a := by
  rw [settled, List.filterMap_append, List.filterMap_cons_some h, List.filterMap_nil,
    settle_concat]
  rfl

variable {rows : List ρ}

lemma settled_eq_some (h : settled rank candidate rows = some a) :
    ∃ row ∈ rows, candidate row = some a :=
  List.mem_filterMap.mp (settle_spec h).1

/-- Order and repetition of the rows do not matter when a single candidate has least
rank. -/
theorem settled_congr {rows' : List ρ} (hmem : ∀ row, row ∈ rows ↔ row ∈ rows')
    (h : ∀ a b, Least rank (rows.filterMap candidate) a → Least rank (rows.filterMap candidate) b →
      a = b) : settled rank candidate rows = settled rank candidate rows' := by
  refine settle_congr (fun a => ?_) h
  simp only [List.mem_filterMap, hmem]

end Rows

end Radiata.Lib
