import Radiata.Reconcile.Negotiation

/-!
# The depth of the descent

A divergent range is offered back in quarters, the last of which inherits the remainder
of the division.  The width of a child is therefore not a quarter of its parent's: what
goes down by a factor of four is the distance of the width from two.  A range of at most
`2 * 4 ^ d + 2` digests has children of at most `2 * 4 ^ (d - 1) + 2`, and four digests
split into singletons, so no chain of children is longer than the space allows.

The bound is about widths alone.  It holds whatever the two engines store, and whatever
they store meanwhile, at every round of offers.
-/

namespace Radiata.Reconcile

open Lib
open UInt64 (ofNat toNat_ofNat')

variable {start stop : UInt64} {n : ℕ}

/-! ## One split -/

def exactSplit (start stop : ℕ) : List (ℕ × ℕ) :=
  let quarter := (stop - start + 1) / 4
  if quarter = 0 then (List.range (stop - start + 1)).map fun i => (start + i, start + i)
  else
    [(start, start + quarter - 1), (start + quarter, start + 2 * quarter - 1),
      (start + 2 * quarter, start + 3 * quarter - 1), (start + 3 * quarter, stop)]

def ends (bound : UInt64 × UInt64) : ℕ × ℕ := (bound.1.toNat, bound.2.toNat)

structure Splits (start stop : UInt64) (children : List (UInt64 × UInt64)) : Prop where
  exact : children.map ends = exactSplit start.toNat stop.toNat
  le_four : children.length ≤ 4
  nonempty : ∀ c ∈ children, c.1 ≤ c.2
  ascending : children.Pairwise fun c c' => c.2 < c'.1
  cover : ∀ digest, (∃ c ∈ children, inside digest c) ↔ inside digest (start, stop)
  narrower : start < stop → ∀ c ∈ children, span c < span (start, stop)

lemma toNat_add_of_le {a b : UInt64} {n : ℕ} (hb : b.toNat = n) (h : a.toNat + n < 2 ^ 64) :
    (a + b).toNat = a.toNat + n := by
  rw [UInt64.toNat_add, hb, Nat.mod_eq_of_lt h]

lemma toNat_sub_one {a : UInt64} (h : 0 < a.toNat) : (a - 1).toNat = a.toNat - 1 := by
  have hone : (1 : UInt64) ≤ a := UInt64.le_iff_toNat_le.mpr h
  rw [UInt64.toNat_sub_of_le _ _ hone]
  rfl

/-- **The split does not overflow**: on words it computes what it computes on numbers. -/
theorem split_ends (h : start ≤ stop) :
    (split start stop).map ends = exactSplit start.toNat stop.toNat := by
  have hle := UInt64.le_iff_toNat_le.mp h
  have hstop := stop.toNat_lt
  set quarter := (stop.toNat - start.toNat + 1) / 4 with hquarter
  have hq : (ofNat quarter).toNat = quarter := by
    rw [toNat_ofNat']
    omega
  have hzero : ofNat quarter = 0 ↔ quarter = 0 := by
    rw [← UInt64.toNat_inj, hq]
    rfl
  rw [split, exactSplit, fanout]
  simp only [← hquarter, hzero]
  split_ifs with hnarrow
  · rw [List.map_map]
    refine List.map_congr_left fun i hi => ?_
    have hi : i < stop.toNat - start.toNat + 1 := List.mem_range.mp hi
    have hofNat : (ofNat i).toNat = i := by
      rw [toNat_ofNat']
      omega
    have hsum := toNat_add_of_le hofNat (a := start) (by omega)
    simp only [Function.comp_apply, ends, hsum]
  · -- the widest sum, `start + 3 * quarter`, is at most `stop`
    have hmul (k : ℕ) (hk : k ≤ 3) (c : UInt64) (hc : c.toNat = k) :
        (c * ofNat quarter).toNat = k * quarter := by
      rw [UInt64.toNat_mul, hq, hc]
      refine Nat.mod_eq_of_lt ?_
      have := Nat.mul_le_mul_right quarter hk
      omega
    have h1 := toNat_add_of_le hq (a := start) (by omega)
    have h2 := toNat_add_of_le (hmul 2 (by decide) 2 rfl) (a := start) (by omega)
    have h3 := toNat_add_of_le (hmul 3 (by decide) 3 rfl) (a := start) (by omega)
    have e1 := toNat_sub_one (a := start + ofNat quarter) (by omega)
    have e2 := toNat_sub_one (a := start + 2 * ofNat quarter) (by omega)
    have e3 := toNat_sub_one (a := start + 3 * ofNat quarter) (by omega)
    simp only [List.map_cons, List.map_nil, ends, h1, h2, h3, e1, e2, e3]

lemma exactSplit_cases {a b : ℕ} (h : a ≤ b) :
    (b = a ∧ exactSplit a b = [(a, a)]) ∨
    (b = a + 1 ∧ exactSplit a b = [(a, a), (a + 1, a + 1)]) ∨
    (b = a + 2 ∧ exactSplit a b = [(a, a), (a + 1, a + 1), (a + 2, a + 2)]) ∨
    ∃ q, 0 < q ∧ a + 4 * q ≤ b + 1 ∧ b < a + 4 * q + 3 ∧
      exactSplit a b =
        [(a, a + q - 1), (a + q, a + 2 * q - 1), (a + 2 * q, a + 3 * q - 1), (a + 3 * q, b)] := by
  rw [exactSplit]
  split_ifs with hnarrow
  · obtain hw | hw | hw : b = a ∨ b = a + 1 ∨ b = a + 2 := by omega
    · subst hw
      exact .inl ⟨rfl, by simp⟩
    · subst hw
      refine .inr (.inl ⟨rfl, ?_⟩)
      rw [show a + 1 - a + 1 = 2 by omega]
      rfl
    · subst hw
      refine .inr (.inr (.inl ⟨rfl, ?_⟩))
      rw [show a + 2 - a + 1 = 3 by omega]
      rfl
  · exact .inr (.inr (.inr ⟨(b - a + 1) / 4, by omega, by omega, by omega, rfl⟩))

lemma exactSplit_spec {a b : ℕ} (h : a ≤ b) :
    (exactSplit a b).length ≤ 4 ∧ (∀ c ∈ exactSplit a b, c.1 ≤ c.2) ∧
      (exactSplit a b).Pairwise (fun c c' => c.2 < c'.1) ∧
      (∀ d, (∃ c ∈ exactSplit a b, c.1 ≤ d ∧ d ≤ c.2) ↔ a ≤ d ∧ d ≤ b) ∧
      (a < b → ∀ c ∈ exactSplit a b, c.2 - c.1 < b - a) := by
  rcases exactSplit_cases h with ⟨rfl, heq⟩ | ⟨rfl, heq⟩ | ⟨rfl, heq⟩ | ⟨q, hq, hfit, -, heq⟩ <;>
    rw [heq] <;>
    simp only [List.length_cons, List.length_nil, List.mem_cons, List.not_mem_nil, or_false,
      forall_eq_or_imp, forall_eq, List.pairwise_cons, List.Pairwise.nil, exists_eq_or_imp,
      exists_eq_left, false_implies, forall_const]
  · exact ⟨by omega, le_rfl, by simp, trivial, by omega⟩
  all_goals exact ⟨by omega, by omega, by simp <;> omega, fun d => by omega, by omega⟩

lemma exactSplit_width {a b : ℕ} (h : a ≤ b) {c : ℕ × ℕ} (hc : c ∈ exactSplit a b) :
    4 * (c.2 - c.1 + 1) ≤ b - a + 10 ∧ (b - a ≤ 3 → c.1 = c.2) := by
  rcases exactSplit_cases h with ⟨-, heq⟩ | ⟨-, heq⟩ | ⟨-, heq⟩ | ⟨q, hq, hfit, hrest, heq⟩
  · simp only [heq, List.mem_singleton] at hc
    subst hc
    omega
  · simp only [heq, List.mem_cons, List.not_mem_nil, or_false] at hc
    rcases hc with rfl | rfl <;> omega
  · simp only [heq, List.mem_cons, List.not_mem_nil, or_false] at hc
    rcases hc with rfl | rfl | rfl <;> omega
  · simp only [heq, List.mem_cons, List.not_mem_nil, or_false] at hc
    rcases hc with rfl | rfl | rfl | rfl <;> dsimp only <;> omega

/-- **What a split is.** -/
theorem split_splits (h : start ≤ stop) : Splits start stop (split start stop) := by
  have hends := split_ends h
  obtain ⟨hlength, hnonempty, hascending, hcover, hnarrower⟩ :=
    exactSplit_spec (UInt64.le_iff_toNat_le.mp h)
  rw [← hends] at hlength hnonempty hascending hcover hnarrower
  refine ⟨hends, by simpa using hlength, fun c hc => ?_, ?_, fun digest => ?_, fun hlt c hc => ?_⟩
  · exact UInt64.le_iff_toNat_le.mpr (hnonempty (ends c) (List.mem_map_of_mem hc))
  · exact (List.pairwise_map.mp hascending).imp UInt64.lt_iff_toNat_lt.mpr
  · simpa [inside, ends, UInt64.le_iff_toNat_le] using hcover digest.toNat
  · have := hnarrower (UInt64.lt_iff_toNat_lt.mp hlt) (ends c) (List.mem_map_of_mem hc)
    simp only [ends] at this
    simp only [span]
    omega

/-! ## Chains of children -/

lemma span_child_le {c : UInt64 × UInt64} {d : ℕ} (h : start ≤ stop)
    (hspan : span (start, stop) ≤ 2 * 4 ^ (d + 1) + 2) (hc : c ∈ split start stop) :
    span c ≤ 2 * 4 ^ d + 2 := by
  have hwidth := (exactSplit_width (UInt64.le_iff_toNat_le.mp h)
    (split_ends h ▸ List.mem_map_of_mem hc : ends c ∈ _)).1
  simp only [span, pow_succ, ends] at hspan hwidth ⊢
  omega

lemma child_singleton {c : UInt64 × UInt64} (h : start ≤ stop)
    (hspan : span (start, stop) ≤ 4) (hc : c ∈ split start stop) : c.1 = c.2 := by
  have hpoint := (exactSplit_width (UInt64.le_iff_toNat_le.mp h)
    (split_ends h ▸ List.mem_map_of_mem hc : ends c ∈ _)).2
  refine UInt64.toNat_inj.mp (hpoint ?_)
  simp only [span] at hspan
  omega

inductive Descends : ℕ → UInt64 × UInt64 → UInt64 × UInt64 → Prop where
  | refl (r : UInt64 × UInt64) : Descends 0 r r
  | child {n : ℕ} {r r' c : UInt64 × UInt64} (h : Descends n r r') (hc : c ∈ split r'.1 r'.2) :
      Descends (n + 1) r c

namespace Descends

variable {r c : UInt64 × UInt64}

lemma ordered (h : Descends n r c) (hr : r.1 ≤ r.2) : c.1 ≤ c.2 := by
  induction h with
  | refl => exact hr
  | child _ hc ih => exact (split_splits (ih hr)).nonempty _ hc

lemma span_le {d : ℕ} (h : Descends n r c) (hr : r.1 ≤ r.2)
    (hspan : span r ≤ 2 * 4 ^ (d + n) + 2) : span c ≤ 2 * 4 ^ d + 2 := by
  induction h generalizing d with
  | refl => simpa using hspan
  | child hchain hc ih =>
    refine span_child_le (hchain.ordered hr) (ih hr ?_) hc
    rwa [Nat.add_assoc, Nat.add_comm 1]

lemma singleton (h : Descends n r c) (hr : r.1 ≤ r.2) (hn : 33 ≤ n) : c.1 = c.2 := by
  obtain ⟨k, rfl⟩ := Nat.exists_eq_add_of_le hn
  rw [Nat.add_comm] at h
  have hwidth : span r ≤ 2 * 4 ^ (0 + (k + 32)) + 2 := by
    have hlt := r.2.toNat_lt
    have hpow : (4 : ℕ) ^ 32 ≤ 4 ^ (0 + (k + 32)) := Nat.pow_le_pow_right (by decide) (by omega)
    rw [span]
    omega
  cases h with
  | child hchain hc =>
    exact child_singleton (hchain.ordered hr) (hchain.span_le hr hwidth) hc

end Descends

/-! ## Rounds of offers -/

def Message.offered : Message → List Triple
  | .offer _ ranges => ranges.map RangeFingerprint.triple
  | _ => []

namespace Engine

variable (e : Engine)

def offersBack (ts : List Triple) : List Triple :=
  ((e.processRanges ts).backlog.drop e.backlog.length).flatMap Message.offered

lemma offersBack_eq (ts : List Triple) :
    e.offersBack ts = (ts.flatMap e.offersFor).map RangeFingerprint.triple := by
  obtain ⟨messages, history, heq, hpushed⟩ := e.processRanges_eq ts
  have hoffers : (e.offerMessages ts).flatMap Message.offered =
      (ts.flatMap e.offersFor).map RangeFingerprint.triple := by
    have hall := flatten_chunks (show 0 < maxRangesPerMessage by decide) (ts.flatMap e.offersFor)
    conv_rhs => rw [← hall]
    rw [offerMessages, List.flatMap_map, List.map_flatten, List.flatMap_def]
    rfl
  have hneeds : (e.needMessages ts).flatMap Message.offered = [] := by
    refine List.flatMap_eq_nil_iff.mpr fun m hm => ?_
    obtain ⟨chunk, -, rfl⟩ := List.mem_map.mp hm
    rfl
  have hrows : messages.flatMap Message.offered = [] := by
    refine List.flatMap_eq_nil_iff.mpr fun m hm => ?_
    obtain ⟨-, -, carried, rfl, -⟩ := hpushed.shape m hm
    rfl
  rw [offersBack, heq]
  simp only [List.drop_left, List.flatMap_append, hoffers, hneeds, hrows, List.append_nil]

/-- The claim needs no further offer: the range matches, one side holds nothing in it, or it
is a single digest. -/
def Resolved (t : Triple) : Prop :=
  e.rangeFingerprint t.start t.stop = t.peer ∨ t.peer.count = 0 ∨
    (e.rangeFingerprint t.start t.stop).count = 0 ∨ t.start = t.stop

end Engine

/-- The claims open after `n` rounds of offers.  Two engines take turns to answer; an engine
may store rows between its turns, so `answering` gives the engine of a round as it is then. -/
def descent (answering : ℕ → Engine) (ts : List Triple) : ℕ → List Triple
  | 0 => ts
  | n + 1 => (answering n).offersBack (descent answering ts n)

section Rounds

variable {answering : ℕ → Engine} {t t' : Triple}

lemma mem_offersBack {e : Engine} {ts : List Triple} :
    t ∈ e.offersBack ts ↔ ∃ t' ∈ ts, ¬ e.Resolved t' ∧
      ∃ c ∈ split t'.start t'.stop, t = (e.claim c).triple := by
  have hoffers (t' : Triple) (range : RangeFingerprint) : range ∈ e.offersFor t' ↔
      ¬ e.Resolved t' ∧ ∃ c ∈ split t'.start t'.stop, range = e.claim c := by
    unfold Engine.offersFor Engine.verdict Engine.Resolved
    split_ifs <;> simp_all [eq_comm]
  simp only [Engine.offersBack_eq, List.mem_map, List.mem_flatMap, hoffers]
  constructor
  · rintro ⟨range, ⟨t', ht', hopen, c, hc, rfl⟩, rfl⟩
    exact ⟨t', ht', hopen, c, hc, rfl⟩
  · rintro ⟨t', ht', hopen, c, hc, rfl⟩
    exact ⟨e.claim c, ⟨t', ht', hopen, c, hc, rfl⟩, rfl⟩

lemma descends_of_mem_descent (h : t' ∈ descent answering [t] n) :
    Descends n (t.start, t.stop) (t'.start, t'.stop) := by
  induction n generalizing t' with
  | zero =>
    rw [List.mem_singleton.mp h]
    exact .refl _
  | succ n ih =>
    obtain ⟨parent, hparent, -, c, hc, rfl⟩ := mem_offersBack.mp h
    exact .child (ih hparent) hc

lemma resolved_of_mem_descent (ht : t.start ≤ t.stop) (hn : 33 ≤ n)
    (h : t' ∈ descent answering [t] n) : (answering n).Resolved t' :=
  .inr (.inr (.inr ((descends_of_mem_descent h).singleton ht hn)))

lemma descent_eq_nil (ht : t.start ≤ t.stop) (hn : 34 ≤ n) :
    descent answering [t] n = [] := by
  obtain ⟨n, rfl⟩ : ∃ k, n = k + 1 := ⟨n - 1, by omega⟩
  refine List.eq_nil_iff_forall_not_mem.mpr fun t' h => ?_
  obtain ⟨parent, hparent, hopen, -⟩ := mem_offersBack.mp h
  exact hopen (resolved_of_mem_descent ht (by omega) hparent)

end Rounds

/-- **Splitting and the depth of the descent.**  A split cuts its range exactly and without
overflow; a chain of children of the whole space is at a singleton after thirty-four splits;
and whatever two engines hold, the offers over a range leave only resolved ranges before the
thirty-fourth round, which offers nothing. -/
theorem split_descent (h : start ≤ stop) :
    Splits start stop (split start stop) ∧
      (∀ n c, 34 ≤ n → Descends n (0, maxWord) c → c.1 = c.2) ∧
      ∀ (answering : ℕ → Engine) (peer : Fingerprint) (n : ℕ),
        (33 ≤ n → ∀ t ∈ descent answering [⟨start, stop, peer⟩] n, (answering n).Resolved t) ∧
        (34 ≤ n → descent answering [⟨start, stop, peer⟩] n = []) := by
  refine ⟨split_splits h, fun n c hn hchain => ?_, fun answering peer n => ⟨?_, ?_⟩⟩
  · exact hchain.singleton (by decide) (by omega)
  · exact fun hn t ht => resolved_of_mem_descent h hn ht
  · exact fun hn => descent_eq_nil h hn

/-- The claims of a range of seven digests, whose last quarter has the remainder. -/
theorem split_descent_seven :
    (10 : UInt64) ≤ 16 ∧ split 10 16 = [(10, 10), (11, 11), (12, 12), (13, 16)] ∧
      Splits 10 16 (split 10 16) :=
  ⟨by decide, by decide, (split_descent (by decide)).1⟩

end Radiata.Reconcile
