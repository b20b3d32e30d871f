import Radiata.Lib.OrdMap

/-!
# Ordered sets and their greatest closed subsets

A finite set as its members in ascending order.  `settle` drops the members that a
condition on the whole set rejects, and repeats until nothing more is dropped.  When the
condition is monotone in the set, what is left is the greatest subset all of whose members
satisfy it.
-/

namespace Radiata.Lib

abbrev OrdSet (K : Type*) [LinearOrder K] := OrdMap K Unit

namespace OrdSet

variable {K : Type*} [LinearOrder K] {s t : OrdSet K} {k l : K}

def contains (s : OrdSet K) (k : K) : Bool := (s.get? k).isSome

def add (s : OrdSet K) (k : K) : OrdSet K := s.insert k ()

def members (s : OrdSet K) : Set K := {k | s.contains k = true}

lemma mem_members : k ∈ s.members ↔ s.contains k = true := Iff.rfl

lemma contains_iff : s.contains k = true ↔ (k, ()) ∈ s := by
  rw [contains, Option.isSome_iff_exists, ← OrdMap.get?_eq_some]
  exact ⟨fun ⟨_, h⟩ => h, fun h => ⟨(), h⟩⟩

lemma mem_keys : k ∈ s.keys ↔ k ∈ s.members := by
  rw [mem_members, contains_iff, OrdMap.keys, List.mem_map]
  exact ⟨fun ⟨e, he, hk⟩ => hk ▸ he, fun h => ⟨(k, ()), h, rfl⟩⟩

@[simp] lemma members_empty : members (OrdMap.empty : OrdSet K) = ∅ :=
  Set.eq_empty_of_forall_notMem fun _ h => OrdMap.not_mem_empty _ (contains_iff.mp h)

@[simp] lemma members_add : (s.add k).members = Set.insert k s.members := by
  ext l
  rw [mem_members, contains_iff, add, OrdMap.mem_insert]
  show _ ↔ l = k ∨ l ∈ s.members
  rw [mem_members, contains_iff]
  by_cases h : l = k
  · simp [h]
  · simp [h]

lemma members_foldl_add (ks : List K) (s : OrdSet K) :
    members (ks.foldl add s) = s.members ∪ {k | k ∈ ks} := by
  induction ks generalizing s with
  | nil => simp
  | cons k ks ih =>
    rw [List.foldl_cons, ih, members_add]
    ext l
    show (l = k ∨ _) ∨ _ ↔ _
    simp only [Set.mem_union, Set.mem_ofPred_eq, List.mem_cons]
    tauto

@[simp] lemma members_filter {p : K → Unit → Bool} :
    members (s.filter p) = {k | k ∈ s.members ∧ p k () = true} := by
  ext l
  rw [mem_members, contains_iff, OrdMap.mem_filter, ← contains_iff]
  rfl

lemma ext_members (h : s.members = t.members) : s = t := by
  refine OrdMap.ext_get? fun k => ?_
  ext u
  rw [OrdMap.get?_eq_some, OrdMap.get?_eq_some, ← contains_iff, ← contains_iff]
  exact Set.ext_iff.mp h k

lemma pairwise_keys (s : OrdSet K) : s.keys.Pairwise (· < ·) :=
  List.pairwise_map.mpr s.ascending

/-! ## The greatest closed subset -/

section Settle

variable (keep : OrdSet K → K → Bool)

def retain (s : OrdSet K) : OrdSet K := s.filter fun k _ => keep s k

def settle : ℕ → OrdSet K → OrdSet K
  | 0, s => s
  | fuel + 1, s =>
    let retained := retain keep s
    if retained.entries.length = s.entries.length then s else settle fuel retained

variable {keep}

lemma length_retain_le (s : OrdSet K) : (retain keep s).entries.length ≤ s.entries.length :=
  List.length_filter_le _ _

lemma keep_of_length_eq (h : (retain keep s).entries.length = s.entries.length)
    (hk : k ∈ s.members) : keep s k = true :=
  List.length_filter_eq_length_iff.mp h (k, ()) (contains_iff.mp hk)

variable {P : Set K → K → Prop}

/-- **Settling leaves the greatest closed subset.** -/
theorem settle_isGreatest (hkeep : ∀ s k, k ∈ members s → (keep s k = true ↔ P s.members k))
    (hmono : ∀ S T : Set K, S ⊆ T → ∀ k, P S k → P T k) (fuel : ℕ) (s : OrdSet K)
    (hfuel : s.entries.length < fuel) :
    IsGreatest {S | S ⊆ s.members ∧ ∀ k ∈ S, P S k} (settle keep fuel s).members := by
  -- by induction on the fuel: a closed subset survives every turn
  induction fuel generalizing s with
  | zero => exact absurd hfuel (Nat.not_lt_zero _)
  | succ fuel ih =>
    unfold settle
    dsimp only
    split_ifs with hlength
    · refine ⟨⟨subset_rfl, fun k hk => ?_⟩, fun S hS => hS.1⟩
      exact (hkeep s k hk).mp (keep_of_length_eq hlength hk)
    · have hshorter : (retain keep s).entries.length < fuel := by
        have hle : (retain keep s).entries.length ≤ s.entries.length := length_retain_le s
        omega
      obtain ⟨⟨hsubset, hclosed⟩, hgreatest⟩ := ih (retain keep s) hshorter
      have hretained : (retain keep s).members ⊆ s.members := by
        intro k hk
        rw [retain, members_filter] at hk
        exact hk.1
      refine ⟨⟨hsubset.trans hretained, hclosed⟩, fun S hS => hgreatest ⟨fun k hk => ?_, hS.2⟩⟩
      rw [retain, members_filter]
      exact ⟨hS.1 hk, (hkeep s k (hS.1 hk)).mpr (hmono S _ hS.1 k (hS.2 k hk))⟩

end Settle

end OrdSet

end Radiata.Lib
