import Radiata.Lib.Register

/-!
# Contests of keyed candidates

A sequence of candidates is reduced to one per key.  The first candidate of a key stands until
one of strictly lower rank displaces it; the winners keep the order in which their keys were
first seen, and every other candidate is a loser.  What wins for a key is what a register with
the key's own candidates would hold.
-/

namespace Radiata.Lib

open scoped List
open List (append_assoc map map_append map_cons map_id)

variable {α K κ : Type*} [DecidableEq K] [LinearOrder κ] (key : α → K) (rank : α → κ)

def keyedBy (k : K) (l : List α) : List α := l.filter fun a => key a = k

def contend (standings : List α × List α) (a : α) : List α × List α :=
  match standings.1.find? fun b => key b = key a with
  | none => (standings.1 ++ [a], standings.2)
  | some standing =>
    if rank a < rank standing then
      (standings.1.map fun b => if key b = key a then a else b, standings.2 ++ [standing])
    else (standings.1, standings.2 ++ [a])

def contest (l : List α) : List α × List α := l.foldl (contend key rank) ([], [])

structure Contested (l : List α) (standings : List α × List α) : Prop where
  distinct : (standings.1.map key).Nodup
  mem_winners : ∀ a, a ∈ standings.1 ↔ settle rank (keyedBy key (key a) l) = some a
  perm : (standings.1 ++ standings.2).Perm l

variable {key rank}

variable {a : α}

lemma mem_keyedBy {k : K} {l : List α} : a ∈ keyedBy key k l ↔ a ∈ l ∧ key a = k := by
  rw [keyedBy, List.mem_filter, decide_eq_true_eq]

lemma keyedBy_concat_self (l : List α) (a : α) :
    keyedBy key (key a) (l ++ [a]) = keyedBy key (key a) l ++ [a] := by
  simp [keyedBy]

lemma keyedBy_concat_of_ne {k : K} (l : List α) (h : key a ≠ k) :
    keyedBy key k (l ++ [a]) = keyedBy key k l := by
  simp [keyedBy, h]

lemma keyedBy_cons_self (a : α) (l : List α) :
    keyedBy key (key a) (a :: l) = a :: keyedBy key (key a) l := by
  simp [keyedBy]

lemma keyedBy_of_mem {l : List α} (h : (l.map key).Nodup) (ha : a ∈ l) :
    keyedBy key (key a) l = [a] := by
  have hnodup : (keyedBy key (key a) l).Nodup := (List.Nodup.of_map key h).filter _
  rw [← List.perm_singleton]
  refine (List.perm_ext_iff_of_nodup hnodup (List.nodup_singleton a)).mpr fun b => ?_
  rw [mem_keyedBy, List.mem_singleton]
  exact ⟨fun hb => List.inj_on_of_nodup_map h hb.1 ha hb.2, fun hb => hb.symm ▸ ⟨ha, rfl⟩⟩

variable {standing : α}

lemma map_displace {u v : List α} (h : ((u ++ standing :: v).map key).Nodup)
    (hkey : key standing = key a) :
    ((u ++ standing :: v).map fun b => if key b = key a then a else b) = u ++ a :: v := by
  rw [map_append, map_cons, List.nodup_append, List.nodup_cons] at h
  obtain ⟨-, ⟨hv, -⟩, hu⟩ := h
  have hother : ∀ b, key b ≠ key a → (if key b = key a then a else b) = b := fun b hb => if_neg hb
  have hleft : u.map (fun b => if key b = key a then a else b) = u := by
    refine (List.map_congr_left fun b hb => hother b fun heq => ?_).trans (map_id u)
    exact hu _ (List.mem_map_of_mem hb) _ List.mem_cons_self (heq.trans hkey.symm)
  have hright : v.map (fun b => if key b = key a then a else b) = v := by
    refine (List.map_congr_left fun b hb => hother b fun heq => ?_).trans (map_id v)
    exact hv (List.mem_map.mpr ⟨b, hb, heq.trans hkey.symm⟩)
  rw [map_append, map_cons, hleft, hright, if_pos hkey]

variable {l : List α} {winners losers : List α}

section

variable (h : Contested key rank l (winners, losers))
include h

lemma Contested.first (hfresh : ∀ b ∈ winners, key b ≠ key a) :
    Contested key rank (l ++ [a]) (winners ++ [a], losers) where
  distinct := by
    rw [map_append, List.map_singleton]
    refine h.distinct.append (List.nodup_singleton _) (List.disjoint_singleton.mpr fun hmem => ?_)
    obtain ⟨b, hb, hkey⟩ := List.mem_map.mp hmem
    exact hfresh b hb hkey
  mem_winners x := by
    have hempty : settle rank (keyedBy key (key a) l) = none := by
      cases hsettle : settle rank (keyedBy key (key a) l) with
      | none => rfl
      | some c =>
        have hkey := (mem_keyedBy.mp (settle_spec hsettle).1).2
        exact absurd hkey (hfresh c ((h.mem_winners c).mpr (hkey.symm ▸ hsettle)))
    rw [List.mem_append, List.mem_singleton]
    by_cases hx : key a = key x
    · rw [← hx, keyedBy_concat_self, settle_concat, hempty, keep, Option.some_inj, eq_comm]
      exact ⟨fun hmem => hmem.resolve_left fun hw => hfresh x hw hx.symm, .inr⟩
    · rw [keyedBy_concat_of_ne l hx, ← h.mem_winners x]
      exact ⟨fun hmem => hmem.resolve_right fun heq => hx (heq ▸ rfl), .inl⟩
  perm := by
    have hmove : winners ++ [a] ++ losers ~ winners ++ losers ++ [a] := by
      rw [append_assoc, append_assoc]
      exact List.perm_append_comm.append_left winners
    exact hmove.trans (h.perm.append_right [a])

lemma Contested.stands (hstanding : standing ∈ winners) (hkey : key standing = key a)
    (hrank : ¬ rank a < rank standing) :
    Contested key rank (l ++ [a]) (winners, losers ++ [a]) where
  distinct := h.distinct
  mem_winners x := by
    rw [h.mem_winners x]
    by_cases hx : key a = key x
    · have hsettle := (h.mem_winners standing).mp hstanding
      rw [hkey] at hsettle
      rw [← hx, keyedBy_concat_self, settle_concat, hsettle, keep, if_neg hrank]
    · rw [keyedBy_concat_of_ne l hx]
  perm := by
    rw [← append_assoc]
    exact h.perm.append_right [a]

lemma Contested.displaces {a standing : α} (hstanding : standing ∈ winners)
    (hkey : key standing = key a) (hrank : rank a < rank standing) : Contested key rank (l ++ [a])
      (winners.map fun b => if key b = key a then a else b, losers ++ [standing]) := by
  obtain ⟨u, v, rfl⟩ := List.append_of_mem hstanding
  have hdistinct := h.distinct
  have hmap := map_displace hdistinct hkey
  have hkeys : ((u ++ a :: v).map key) = (u ++ standing :: v).map key := by
    simp [hkey]
  constructor
  · show (map key (map _ _)).Nodup
    rw [hmap, hkeys]
    exact hdistinct
  · intro x
    show x ∈ map _ _ ↔ _
    rw [hmap]
    by_cases hx : key a = key x
    · have hsettle := (h.mem_winners standing).mp hstanding
      rw [hkey] at hsettle
      rw [← hx, keyedBy_concat_self, settle_concat, hsettle, keep, if_pos hrank, Option.some_inj]
      refine ⟨fun hmem => ?_, fun heq => heq ▸ by simp⟩
      -- another candidate of the key would be the displaced one
      have hnodup : ((u ++ a :: v).map key).Nodup := by rwa [hkeys]
      exact List.inj_on_of_nodup_map hnodup (by simp) hmem hx
    · rw [keyedBy_concat_of_ne l hx, ← h.mem_winners x]
      have hne : x ≠ a := fun heq => hx (heq ▸ rfl)
      have hne' : x ≠ standing := fun heq => hx (heq ▸ hkey.symm)
      simp [hne, hne']
  · show (map _ _ ++ _).Perm _
    rw [hmap]
    have hold : (u ++ standing :: v ++ losers).Perm l := h.perm
    calc u ++ a :: v ++ (losers ++ [standing])
      _ ~ a :: (u ++ v ++ losers ++ [standing]) := by simp [append_assoc]
      _ ~ a :: standing :: (u ++ v ++ losers) :=
          (List.perm_append_singleton standing (u ++ v ++ losers)).cons a
      _ ~ a :: l := by
          refine List.Perm.cons a (List.Perm.trans ?_ hold)
          simp [append_assoc, List.perm_middle.symm]
      _ ~ l ++ [a] := (List.perm_append_singleton a l).symm

end

lemma Contested.contend {standings : List α × List α} (h : Contested key rank l standings) (a : α) :
    Contested key rank (l ++ [a]) (Lib.contend key rank standings a) := by
  obtain ⟨winners, losers⟩ := standings
  unfold Lib.contend
  cases hfind : winners.find? fun b => key b = key a with
  | none => exact h.first fun b hb => by simpa using List.find?_eq_none.mp hfind b hb
  | some standing =>
    have hstanding := List.mem_of_find?_eq_some hfind
    have hkey : key standing = key a := by simpa using List.find?_some hfind
    dsimp only
    split_ifs with hrank
    · exact h.displaces hstanding hkey hrank
    · exact h.stands hstanding hkey hrank

/-- **A contest leaves each key what a register of its candidates would hold**, and loses
nothing. -/
theorem contest_contested (l : List α) : Contested key rank l (contest key rank l) := by
  induction l using List.reverseRecOn with
  | nil => exact ⟨.nil, by simp [contest, keyedBy], .nil⟩
  | append_singleton l a ih =>
    rw [contest, List.foldl_append]
    exact ih.contend a

end Radiata.Lib
