import Radiata.Lib.OrdMap

/-!
# Ordered scans

A source of items is a state and a function that asks it for the next one.  What it enumerates
is what enough calls answer, so a source that fails or never ends enumerates nothing.

The sources of interest walk an ordered map from a lower bound.  Over keys that are lists, in
lexicographic order, the keys with a common front are an interval: a walk that starts at that
front may stop at the first key without it.  A front that ends in a separator which does not
occur before it splits a packed key into its two parts.

## Main Definitions

* `drain` — the answers of a source to a number of calls
* `Enumerates` — the items a source gives before it ends
* `OrdMap.rangeFrom` — the entries of a map from a lower bound on
* `OrdMap.relabel` — a map under other keys
-/

namespace Radiata.Lib

/-! ## Sources -/

section Sources

variable {σ α β ε : Type*}

def drain (next : σ → Except ε (Option α) × σ) : ℕ → σ → List (Except ε α)
  | 0, _ => []
  | calls + 1, s =>
    match next s with
    | (.ok none, _) => []
    | (.ok (some a), s') => .ok a :: drain next calls s'
    | (.error e, _) => [.error e]

def Enumerates (next : σ → Except ε (Option α) × σ) (s : σ) (items : List α) : Prop :=
  ∀ calls, items.length < calls → drain next calls s = items.map .ok

variable {next : σ → Except ε (Option α) × σ} {s s' : σ} {items : List α}

lemma Enumerates.ended (h : (next s).1 = .ok none) : Enumerates next s [] := by
  intro calls hcalls
  obtain _ | calls := calls
  · exact absurd hcalls (Nat.not_lt_zero _)
  · have hnext : next s = (.ok none, (next s).2) := Prod.ext h rfl
    rw [drain, hnext]
    rfl

lemma Enumerates.item {a : α} (h : next s = (.ok (some a), s')) (hrest : Enumerates next s' items) :
    Enumerates next s (a :: items) := by
  intro calls hcalls
  obtain _ | calls := calls
  · exact absurd hcalls (Nat.not_lt_zero _)
  · rw [drain, h, List.map_cons]
    exact congrArg _ (hrest calls (Nat.lt_of_succ_lt_succ hcalls))

lemma Enumerates.congr (h : next s = next s') (hitems : Enumerates next s' items) :
    Enumerates next s items := by
  intro calls hcalls
  rw [← hitems calls hcalls]
  cases calls with
  | zero => rfl
  | succ calls => rw [drain, drain, h]

def findMap (f : α → Option β) : List α → Option β × List α
  | [] => (none, [])
  | a :: l =>
    match f a with
    | some b => (some b, l)
    | none => findMap f l

end Sources

/-! ## Ranges -/

inductive LowerBound (K : Type*) where
  | included (k : K)
  | excluded (k : K)

def LowerBound.Reached {K : Type*} [LinearOrder K] : LowerBound K → K → Prop
  | included b, k => b ≤ k
  | excluded b, k => b < k

instance {K : Type*} [LinearOrder K] (bound : LowerBound K) (k : K) : Decidable (bound.Reached k) :=
  match bound with
  | .included b => inferInstanceAs (Decidable (b ≤ k))
  | .excluded b => inferInstanceAs (Decidable (b < k))

namespace OrdMap

variable {K K' V W : Type*} [LinearOrder K] [LinearOrder K']

def rangeFrom (m : OrdMap K V) (bound : LowerBound K) : List (K × V) :=
  m.entries.filter fun e => bound.Reached e.1

variable {m : OrdMap K V}

lemma mem_rangeFrom {bound : LowerBound K} {e : K × V} :
    e ∈ m.rangeFrom bound ↔ e ∈ m ∧ bound.Reached e.1 := by
  rw [rangeFrom, List.mem_filter, decide_eq_true_eq, mem_def]

lemma rangeFrom_ascending (m : OrdMap K V) (bound : LowerBound K) :
    Ascending (m.rangeFrom bound) := m.ascending.filter _

lemma rangeFrom_mapValues (m : OrdMap K V) (f : K → V → W) (bound : LowerBound K) :
    (m.mapValues f).rangeFrom bound = (m.rangeFrom bound).map fun e => (e.1, f e.1 e.2) := by
  rw [rangeFrom, mapValues, List.filter_map]
  rfl

def relabel (m : OrdMap K V) (f : K → K') (g : V → W) : OrdMap K' W :=
  m.entries.foldl (fun written e => written.insert (f e.1) (g e.2)) empty

variable {f : K → K'}

section

variable (hf : Function.Injective f)
include hf

lemma mem_foldl_insert {g : V → W} {l : List (K × V)} (hl : Ascending l) (m : OrdMap K' W) {k : K'}
    {w : W} : (k, w) ∈ l.foldl (fun written e => written.insert (f e.1) (g e.2)) m ↔
      (∃ e ∈ l, f e.1 = k ∧ g e.2 = w) ∨ (k, w) ∈ m ∧ ∀ e ∈ l, k ≠ f e.1 := by
  induction l generalizing m with
  | nil => simp
  | cons e l ih =>
    obtain ⟨hhead, htail⟩ := List.pairwise_cons.mp hl
    rw [List.foldl_cons, ih htail, mem_insert, List.exists_mem_cons_iff, List.forall_mem_cons,
      Prod.mk.injEq]
    constructor
    · rintro (hlater | ⟨⟨rfl, rfl⟩ | ⟨hmem, hne⟩, hnone⟩)
      · exact .inl (.inr hlater)
      · exact .inl (.inl ⟨rfl, rfl⟩)
      · exact .inr ⟨hmem, hne, hnone⟩
    · rintro ((⟨rfl, rfl⟩ | hlater) | ⟨hmem, hne, hnone⟩)
      · -- No later entry has the same key, so this one is not overwritten.
        exact .inr ⟨.inl ⟨rfl, rfl⟩, fun e' he' heq => (hhead e' he').ne (hf heq)⟩
      · exact .inl hlater
      · exact .inr ⟨.inr ⟨hmem, hne⟩, hnone⟩

lemma mem_relabel {g : V → W} {k : K'} {w : W} :
    (k, w) ∈ m.relabel f g ↔ ∃ e ∈ m.entries, f e.1 = k ∧ g e.2 = w := by
  rw [relabel, mem_foldl_insert hf m.ascending]
  simp

lemma relabel_eq_mapValues (g : V → W) :
    m.relabel f g = (m.relabel f id).mapValues fun _ v => g v := by
  apply ext_get?
  intro k
  ext w
  rw [get?_eq_some, get?_eq_some, mem_relabel hf, mem_def, mapValues, List.mem_map]
  constructor
  · rintro ⟨e, he, rfl, rfl⟩
    exact ⟨(f e.1, e.2), (mem_relabel hf).mpr ⟨e, he, rfl, rfl⟩, rfl⟩
  · rintro ⟨⟨k', v⟩, hmem, heq⟩
    obtain ⟨rfl, rfl⟩ := Prod.mk.inj heq
    obtain ⟨e, he, hk, rfl⟩ := (mem_relabel hf).mp hmem
    exact ⟨e, he, hk, rfl⟩

end

end OrdMap

/-! ## Fronts -/

section Fronts

variable {α V : Type*} [LinearOrder α]

lemma append_lt_append_iff {c a b : List α} : c ++ a < c ++ b ↔ a < b := by
  induction c with
  | nil => rfl
  | cons x c ih => rw [List.cons_append, List.cons_append, List.cons_lt_cons_self, ih]

variable {p k : List α}

lemma le_of_isPrefix (h : p <+: k) : p ≤ k := by
  obtain ⟨rest, rfl⟩ := h
  refine not_lt.mp fun hlt => ?_
  have hnil : rest < [] := by
    rw [← append_lt_append_iff (c := p), List.append_nil]
    exact hlt
  exact List.not_lt_nil _ hnil

lemma isPrefix_of_le_of_le {k' : List α} (hp : p ≤ k) (hk : k ≤ k') (h : p <+: k') : p <+: k := by
  induction p generalizing k k' with
  | nil => exact List.nil_prefix
  | cons x p ih =>
    obtain ⟨rest, rfl⟩ := h
    cases k with
    | nil => exact absurd hp (not_le.mpr (List.nil_lt_cons _ _))
    | cons y k =>
      rw [List.cons_append] at hk
      have hxy : x ≤ y := by
        refine not_lt.mp fun hlt => not_lt.mpr hp (List.cons_lt_cons_iff.mpr (.inl hlt))
      have hyx : y ≤ x := by
        refine not_lt.mp fun hlt => not_lt.mpr hk (List.cons_lt_cons_iff.mpr (.inl hlt))
      obtain rfl := le_antisymm hxy hyx
      have hp' : p ≤ k := not_lt.mp fun hlt => not_lt.mpr hp (List.cons_lt_cons_self.mpr hlt)
      have hk' : k ≤ p ++ rest :=
        not_lt.mp fun hlt => not_lt.mpr hk (List.cons_lt_cons_self.mpr hlt)
      exact List.cons_prefix_cons.mpr ⟨rfl, ih hp' hk' (List.prefix_append _ _)⟩

lemma Ascending.takeWhile_isPrefix {l : List (List α × V)} (h : Ascending l)
    (hp : ∀ e ∈ l, p ≤ e.1) :
    (l.takeWhile fun e => decide (p <+: e.1)) = l.filter fun e => decide (p <+: e.1) := by
  refine takeWhile_eq_filter_of_pairwise (List.Pairwise.imp_of_mem ?_ h)
  intro a b ha _ hab hb
  exact decide_eq_true (isPrefix_of_le_of_le (hp a ha) hab.le (of_decide_eq_true hb))

end Fronts

/-! ## Packed keys -/

section Packed

variable {α : Type*} {z : α} {a b x y : List α}

lemma append_separator_inj (ha : z ∉ a) (hb : z ∉ b) (h : a ++ z :: x = b ++ z :: y) :
    a = b ∧ x = y := by
  induction a generalizing b with
  | nil =>
    cases b with
    | nil => exact ⟨rfl, (List.cons.inj h).2⟩
    | cons c b => exact absurd (List.cons.inj h).1 (List.ne_of_not_mem_cons hb)
  | cons c a ih =>
    cases b with
    | nil => exact absurd (List.cons.inj h).1.symm (List.ne_of_not_mem_cons ha)
    | cons d b =>
      obtain ⟨rfl, htail⟩ := List.cons.inj h
      obtain ⟨rfl, rfl⟩ :=
        ih (List.not_mem_of_not_mem_cons ha) (List.not_mem_of_not_mem_cons hb) htail
      exact ⟨rfl, rfl⟩

lemma append_separator_isPrefix_iff (ha : z ∉ a) (hb : z ∉ b) :
    a ++ z :: x <+: b ++ z :: y ↔ a = b ∧ x <+: y := by
  constructor
  · rintro ⟨rest, h⟩
    rw [List.append_assoc, List.cons_append] at h
    obtain ⟨rfl, hxy⟩ := append_separator_inj ha hb h
    exact ⟨rfl, rest, hxy⟩
  · rintro ⟨rfl, rest, rfl⟩
    exact ⟨rest, by simp⟩

end Packed

end Radiata.Lib
