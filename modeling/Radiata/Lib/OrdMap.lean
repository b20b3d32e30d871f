import Radiata.Lib.Ascending

/-!
# Ordered maps

A finite map as its entries in ascending key order, the order in which an ordered map is
iterated.  The order is part of the value, so a map with a repeated or misplaced key
cannot be built.
-/

namespace Radiata.Lib

structure OrdMap (K V : Type*) [LinearOrder K] where
  entries : List (K × V)
  ascending : Ascending entries

namespace OrdMap

variable {K V W : Type*} [LinearOrder K]

def empty : OrdMap K V := ⟨[], .nil⟩

instance : Membership (K × V) (OrdMap K V) := ⟨fun m e => e ∈ m.entries⟩

variable {e : K × V}

lemma mem_def {m : OrdMap K V} : e ∈ m ↔ e ∈ m.entries := Iff.rfl

section

variable (m : OrdMap K V) (k : K)

def get? : Option V := (m.entries.find? fun e => e.1 = k).map Prod.snd

def insert (v : V) : OrdMap K V where
  entries := m.entries.filter (fun e => e.1 < k) ++ (k, v) :: m.entries.filter fun e => k < e.1
  ascending := by
    refine Ascending.append_cons ?_ (by simp) (by simp)
    refine List.pairwise_append.mpr ⟨m.ascending.filter _, m.ascending.filter _, ?_⟩
    intro a ha b hb
    have hlow : a.1 < k := of_decide_eq_true (List.mem_filter.mp ha).2
    have hhigh : k < b.1 := of_decide_eq_true (List.mem_filter.mp hb).2
    exact hlow.trans hhigh

def filter (p : K → V → Bool) : OrdMap K V :=
  ⟨m.entries.filter fun e => p e.1 e.2, m.ascending.filter _⟩

def erase : OrdMap K V := m.filter fun other _ => decide (other ≠ k)

def mapValues (f : K → V → W) : OrdMap K W where
  entries := m.entries.map fun e => (e.1, f e.1 e.2)
  ascending := by
    rw [Ascending, List.pairwise_map]
    exact m.ascending

def keys : List K := m.entries.map Prod.fst

end

variable {m : OrdMap K V} {k : K} {v : V}

@[simp] lemma not_mem_empty (e : K × V) : e ∉ (empty : OrdMap K V) := List.not_mem_nil

lemma get?_eq_some : m.get? k = some v ↔ (k, v) ∈ m := by
  constructor
  · intro h
    obtain ⟨⟨k', v'⟩, hfind, rfl⟩ := Option.map_eq_some_iff.mp h
    have hkey : k' = k := by simpa using List.find?_some hfind
    exact hkey ▸ List.mem_of_find?_eq_some hfind
  · intro h
    cases hfind : m.entries.find? fun e => e.1 = k with
    | none => exact absurd (List.find?_eq_none.mp hfind (k, v) h) (by simp)
    | some e =>
      have hkey : e.1 = k := by simpa using List.find?_some hfind
      have hmem : (k, e.2) ∈ m.entries := hkey ▸ List.mem_of_find?_eq_some hfind
      rw [get?, hfind, Option.map_some, m.ascending.eq_of_mem_of_mem hmem h]

lemma mem_insert : e ∈ m.insert k v ↔ e = (k, v) ∨ e ∈ m ∧ e.1 ≠ k := by
  simp only [mem_def, insert, List.mem_append, List.mem_cons, List.mem_filter, decide_eq_true_eq,
    lt_or_lt_iff_ne.symm]
  tauto

lemma get?_insert_self : (m.insert k v).get? k = some v :=
  get?_eq_some.mpr (mem_insert.mpr (.inl rfl))

lemma get?_insert_of_ne {k' : K} (h : k' ≠ k) : (m.insert k v).get? k' = m.get? k' := by
  ext w
  rw [get?_eq_some, get?_eq_some, mem_insert]
  constructor
  · rintro (heq | ⟨hmem, -⟩)
    · exact absurd (Prod.mk.inj heq).1 h
    · exact hmem
  · exact fun hmem => .inr ⟨hmem, h⟩

lemma ext_get? {m' : OrdMap K V} (h : ∀ k, m.get? k = m'.get? k) : m = m' := by
  obtain ⟨entries, ascending⟩ := m
  obtain ⟨entries', ascending'⟩ := m'
  have hentries : entries = entries' := by
    refine ascending.ext ascending' fun e => ?_
    rw [← mem_def (m := ⟨entries, ascending⟩), ← mem_def (m := ⟨entries', ascending'⟩),
      ← get?_eq_some, ← get?_eq_some, h]
  subst hentries
  rfl

lemma mem_filter {p : K → V → Bool} : e ∈ m.filter p ↔ e ∈ m ∧ p e.1 e.2 = true := List.mem_filter

@[simp] lemma get?_empty : (empty : OrdMap K V).get? k = none := rfl

lemma get?_erase_self : (m.erase k).get? k = none := by
  rw [Option.eq_none_iff_forall_ne_some]
  intro w hw
  have hmem := (mem_filter.mp (get?_eq_some.mp hw)).2
  exact of_decide_eq_true hmem rfl

lemma get?_erase_of_ne {k' : K} (h : k' ≠ k) : (m.erase k).get? k' = m.get? k' := by
  ext w
  rw [get?_eq_some, get?_eq_some]
  exact ⟨fun hw => (mem_filter.mp hw).1, fun hw => mem_filter.mpr ⟨hw, decide_eq_true h⟩⟩

lemma length_erase_le : (m.erase k).entries.length ≤ m.entries.length :=
  List.length_filter_le _ _

lemma length_sides :
    (m.entries.filter fun e => e.1 < k).length + (m.entries.filter fun e => k < e.1).length =
      (m.erase k).entries.length := by
  have hfirst : m.entries.filter (fun e => decide (e.1 < k)) =
      (m.erase k).entries.filter fun e => decide (e.1 < k) := by
    rw [erase, filter, List.filter_filter]
    exact List.filter_congr fun e _ => by
      by_cases h : e.1 < k
      · simp [h, h.ne]
      · simp [h]
  have hsecond : m.entries.filter (fun e => decide (k < e.1)) =
      (m.erase k).entries.filter fun e => !decide (e.1 < k) := by
    rw [erase, filter, List.filter_filter]
    exact List.filter_congr fun e _ => by
      rcases lt_trichotomy e.1 k with h | h | h
      · simp [h, h.not_gt]
      · simp [h]
      · simp [h, h.ne', h.not_gt]
  rw [hfirst, hsecond]
  exact (List.length_eq_length_filter_add _).symm

lemma length_insert : (m.insert k v).entries.length = (m.erase k).entries.length + 1 := by
  rw [← length_sides]
  simp only [insert, List.length_append, List.length_cons]
  omega

lemma length_insert_le : (m.insert k v).entries.length ≤ m.entries.length + 1 := by
  rw [length_insert]
  exact Nat.add_le_add_right length_erase_le 1

lemma length_insert_of_get? {w : V} (h : m.get? k = some w) :
    (m.insert k v).entries.length = m.entries.length := by
  have hlt : (m.erase k).entries.length < m.entries.length :=
    List.length_filter_lt_length_iff_exists.mpr ⟨(k, w), get?_eq_some.mp h, by simp⟩
  have hle : m.entries.length ≤ (m.erase k).entries.length + 1 := by
    have hperm : ∀ e ∈ m.entries, e ∈ (k, w) :: (m.erase k).entries := by
      intro e he
      by_cases hk : e.1 = k
      · have hw : e.2 = w := m.ascending.eq_of_mem_of_mem (hk ▸ he) (get?_eq_some.mp h)
        exact List.mem_cons.mpr (.inl (Prod.ext hk hw))
      · exact List.mem_cons_of_mem _ (mem_filter.mpr ⟨he, decide_eq_true hk⟩)
    have hnodup : m.entries.Nodup := m.ascending.nodup
    exact (hnodup.subperm hperm).length_le
  rw [length_insert]
  omega

lemma mem_mapValues {f : K → V → W} {e : K × W} :
    e ∈ m.mapValues f ↔ ∃ w, (e.1, w) ∈ m ∧ f e.1 w = e.2 := by
  simp only [mem_def, mapValues, List.mem_map]
  constructor
  · rintro ⟨⟨k, v⟩, hmem, rfl⟩
    exact ⟨v, hmem, rfl⟩
  · rintro ⟨w, hmem, hw⟩
    exact ⟨(e.1, w), hmem, by rw [hw]⟩

lemma forall_insert {P : V → Prop} (h : ∀ e ∈ m, P e.2) (hv : P v) :
    ∀ e ∈ m.insert k v, P e.2 := by
  intro e he
  rcases mem_insert.mp he with rfl | ⟨hold, -⟩
  · exact hv
  · exact h e hold

lemma forall_mapValues {P : V → Prop} {Q : W → Prop} {f : K → V → W} (h : ∀ e ∈ m, P e.2)
    (hf : ∀ k w, P w → Q (f k w)) : ∀ e ∈ m.mapValues f, Q e.2 := by
  intro e he
  obtain ⟨w, hmem, hw⟩ := mem_mapValues.mp he
  exact hw ▸ hf e.1 w (h (e.1, w) hmem)

end OrdMap

end Radiata.Lib
