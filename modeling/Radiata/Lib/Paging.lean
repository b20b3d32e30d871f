import Radiata.Lib.Scan

/-!
# Keyset paging

Entries in ascending key order are read page by page.  A page is filled from the entries
behind a cursor, an accepted entry is an item of it, and a page that is full names the last key
it looked at when another entry follows.  The next page starts strictly behind that key.

A page counts items and its end looks at entries, so a full page may be followed by one without
items, and the gaps that are not accepted may lie on either side of a page's end.

## Main Definitions

* `fillPage` — the page filled from a list of entries
* `Walk` — the pages asked for one after the other
* `Paginates`, `CompleteWalk` — the pages carry the items, full ones first

## Main Results

* `completeWalk_of_fillPage` — a walk ends, and its pages carry every accepted item once and in
  order
-/

namespace Radiata.Lib

structure Paged (K T : Type*) where
  items : List T
  next : Option K
deriving DecidableEq

variable {K V T ε : Type*}

def fillPage (limit : ℕ) (accept : K × V → Option T) : List (K × V) → List T → Paged K T
  | [], items => ⟨items, none⟩
  | entry :: rest, items =>
    match accept entry with
    | none => fillPage limit accept rest items
    | some item =>
      let items := items ++ [item]
      if limit ≤ items.length then ⟨items, if rest = [] then none else some entry.1⟩
      else fillPage limit accept rest items

variable {limit : ℕ} {items : List T}

lemma fillPage_cases (accept : K × V → Option T) (l : List (K × V)) (h : items.length < limit) :
    (fillPage limit accept l items).next = none ∧
        (fillPage limit accept l items).items = items ++ l.filterMap accept ∧
        (items ++ l.filterMap accept).length ≤ limit ∨
      ∃ front entry back, l = front ++ entry :: back ∧
        (fillPage limit accept l items).next = some entry.1 ∧
        (fillPage limit accept l items).items = items ++ (front ++ [entry]).filterMap accept ∧
        (items ++ (front ++ [entry]).filterMap accept).length = limit := by
  induction l generalizing items with
  | nil => exact .inl ⟨rfl, (List.append_nil _).symm, by simpa using h.le⟩
  | cons entry rest ih =>
    cases haccept : accept entry with
    | none =>
      have hfill : fillPage limit accept (entry :: rest) items =
          fillPage limit accept rest items := by
        rw [fillPage, haccept]
      rw [hfill, List.filterMap_cons_none haccept]
      rcases ih h with hall | ⟨front, stop, back, rfl, hnext, hitems, hlength⟩
      · exact .inl hall
      · refine .inr ⟨entry :: front, stop, back, rfl, hnext, ?_, ?_⟩ <;>
          rw [List.cons_append, List.filterMap_cons_none haccept] <;> assumption
    | some item =>
      have happend (l : List (K × V)) :
          items ++ (entry :: l).filterMap accept = (items ++ [item]) ++ l.filterMap accept := by
        rw [List.filterMap_cons_some haccept, List.append_assoc, List.singleton_append]
      rw [happend]
      by_cases hfull : limit ≤ (items ++ [item]).length
      · have hlength : (items ++ [item]).length = limit := by
          rw [List.length_append, List.length_singleton] at hfull ⊢
          omega
        have hfill : fillPage limit accept (entry :: rest) items =
            ⟨items ++ [item], if rest = [] then none else some entry.1⟩ := by
          rw [fillPage, haccept]
          exact if_pos hfull
        rw [hfill]
        by_cases hrest : rest = []
        · subst hrest
          exact .inl ⟨rfl, (List.append_nil _).symm, by simpa using hlength.le⟩
        · refine .inr ⟨[], entry, rest, rfl, if_neg hrest, ?_, ?_⟩ <;>
            rw [List.nil_append, happend, List.filterMap_nil, List.append_nil]
          exact hlength
      · have hfill : fillPage limit accept (entry :: rest) items =
            fillPage limit accept rest (items ++ [item]) := by
          rw [fillPage, haccept]
          exact if_neg hfull
        rw [hfill]
        rcases ih (not_le.mp hfull) with hall | ⟨front, stop, back, rfl, hnext, hitems, hlength⟩
        · exact .inl hall
        · exact .inr ⟨entry :: front, stop, back, rfl, hnext,
            by rw [List.cons_append, happend]; exact hitems,
            by rw [List.cons_append, happend]; exact hlength⟩

/-! ## Walks -/

inductive Walk (K : Type*) where
  | onward (cursor : Option K)
  | ended

def Walk.next (page : Option K → Except ε (Paged K T)) :
    Walk K → Except ε (Option (Paged K T)) × Walk K
  | ended => (.ok none, ended)
  | onward cursor =>
    match page cursor with
    | .error e => (.error e, ended)
    | .ok paged =>
      (.ok (some paged),
        match paged.next with
        | none => ended
        | some key => onward (some key))

/-- The pages carry the items in order.  All but the last are full, and the last has no
continuation. -/
structure Paginates (limit : ℕ) (items : List T) (pages : List (Paged K T)) : Prop where
  delivered : pages.flatMap Paged.items = items
  full : ∀ page ∈ pages.dropLast, page.items.length = limit ∧ page.next ≠ none
  ended : ∃ last, pages.getLast? = some last ∧ last.next = none ∧ last.items.length ≤ limit

lemma Paginates.single {page : Paged K T} (hnext : page.next = none)
    (hlength : page.items.length ≤ limit) : Paginates limit page.items [page] :=
  ⟨List.flatMap_singleton _ _, by simp, page, rfl, hnext, hlength⟩

lemma Paginates.cons {limit : ℕ} {items : List T} {page : Paged K T} {pages : List (Paged K T)}
    (h : Paginates limit items pages) (hfull : page.items.length = limit)
    (hnext : page.next ≠ none) :
    Paginates limit (page.items ++ items) (page :: pages) := by
  obtain ⟨last, hlast, hended⟩ := h.ended
  have hne : pages ≠ [] := by
    rintro rfl
    exact absurd hlast (by simp)
  refine ⟨by rw [List.flatMap_cons, h.delivered], fun other hother => ?_, last, ?_, hended⟩
  · rw [List.dropLast_cons_of_ne_nil hne] at hother
    rcases List.mem_cons.mp hother with rfl | hother
    · exact ⟨hfull, hnext⟩
    · exact h.full other hother
  · rw [List.getLast?_cons, hlast]
    rfl

def CompleteWalk (limit : ℕ) (page : Option K → Except ε (Paged K T)) (items : List T) : Prop :=
  ∃ pages, Enumerates (Walk.next page) (.onward none) pages ∧ Paginates limit items pages

section Order

variable [LinearOrder K]

def behind (cursor : Option K) (l : List (K × V)) : List (K × V) :=
  l.filter fun e => ∀ c ∈ cursor, c < e.1

@[simp] lemma behind_none (l : List (K × V)) : behind none l = l :=
  List.filter_eq_self.mpr (by simp)

variable {l : List (K × V)}

lemma drop_takeWhile_eq_behind (hl : Ascending l) (c : K) :
    l.drop (l.takeWhile fun e => decide (e.1 ≤ c)).length = behind (some c) l := by
  induction l with
  | nil => rfl
  | cons e l ih =>
    obtain ⟨hhead, htail⟩ := List.pairwise_cons.mp hl
    by_cases he : e.1 ≤ c
    · rw [List.takeWhile_cons_of_pos (by simpa using he), List.length_cons, List.drop_succ_cons,
        ih htail, behind, behind, List.filter_cons_of_neg (by simpa using he)]
    · have hall : behind (some c) (e :: l) = e :: l := by
        refine List.filter_eq_self.mpr fun x hx => ?_
        rcases List.mem_cons.mp hx with rfl | hx
        · simpa using he
        · simpa using (not_le.mp he).trans (hhead x hx)
      rw [List.takeWhile_cons_of_neg (by simpa using he), hall]
      rfl

lemma behind_of_append {cursor : Option K} {front back : List (K × V)} {entry : K × V}
    (hl : Ascending l) (h : behind cursor l = front ++ entry :: back) :
    behind (some entry.1) l = back := by
  have hascending : Ascending (front ++ entry :: back) := h ▸ hl.filter _
  obtain ⟨hfront, hback, hcross⟩ := List.pairwise_append.mp hascending
  obtain ⟨hentry, hback⟩ := List.pairwise_cons.mp hback
  have hcursor : ∀ c ∈ cursor, c < entry.1 := by
    have hmem : entry ∈ behind cursor l := by simp [h]
    simpa using (List.mem_filter.mp hmem).2
  refine (hl.filter _).ext hback fun e => ?_
  rw [List.mem_filter]
  simp only [Option.mem_some_iff, forall_eq', decide_eq_true_eq]
  constructor
  · rintro ⟨hmem, hlt⟩
    have he : e ∈ behind cursor l :=
      List.mem_filter.mpr ⟨hmem, decide_eq_true fun c hc => (hcursor c hc).trans hlt⟩
    rw [h, List.mem_append, List.mem_cons] at he
    rcases he with he | rfl | he
    · exact absurd hlt (hcross e he entry List.mem_cons_self).asymm
    · exact absurd hlt (lt_irrefl _)
    · exact he
  · intro he
    have hmem : e ∈ behind cursor l := by simp [h, he]
    exact ⟨(List.mem_filter.mp hmem).1, hentry e he⟩

variable {accept : K × V → Option T} {page : Option K → Except ε (Paged K T)}

lemma walk_enumerates_behind (hl : Ascending l) (hlimit : 0 < limit)
    (hpage : ∀ cursor, page cursor = .ok (fillPage limit accept (behind cursor l) []))
    (cursor : Option K) : ∃ pages, Enumerates (Walk.next page) (.onward cursor) pages ∧
      Paginates limit ((behind cursor l).filterMap accept) pages := by
  -- Every page but the last leaves fewer entries behind its cursor.
  induction hleft : (behind cursor l).length using Nat.strong_induction_on generalizing cursor with
  | _ left ih =>
    have hnext : Walk.next page (.onward cursor) =
        (.ok (some (fillPage limit accept (behind cursor l) [])),
          match (fillPage limit accept (behind cursor l) []).next with
          | none => .ended
          | some key => .onward (some key)) := by
      rw [Walk.next, hpage]
    have hempty : ([] : List T).length < limit := hlimit
    rcases fillPage_cases accept (behind cursor l) hempty with
      ⟨hnone, hitems, hlength⟩ | ⟨front, entry, back, hbehind, hsome, hitems, hlength⟩
    · rw [hnone] at hnext
      rw [List.nil_append] at hitems hlength
      refine ⟨_, .item hnext (.ended rfl), ?_⟩
      rw [← hitems] at hlength ⊢
      exact .single hnone hlength
    · rw [hsome] at hnext
      rw [List.nil_append] at hitems hlength
      have hback : behind (some entry.1) l = back := behind_of_append hl hbehind
      have hless : (behind (some entry.1) l).length < left := by
        rw [hback, ← hleft, hbehind, List.length_append, List.length_cons]
        omega
      obtain ⟨pages, hpages, hpaginates⟩ := ih _ hless (some entry.1) rfl
      refine ⟨_, .item hnext hpages, ?_⟩
      have hsplit : (behind cursor l).filterMap accept =
          (fillPage limit accept (behind cursor l) []).items ++
            (behind (some entry.1) l).filterMap accept := by
        rw [hitems, hback, ← List.filterMap_append, List.append_assoc, List.singleton_append,
          ← hbehind]
      rw [hsplit]
      exact hpaginates.cons (by rw [hitems, hlength]) (by rw [hsome]; simp)

/-- **A walk is complete**: it ends, and its pages carry every accepted entry, each once and in
order. -/
theorem completeWalk_of_fillPage (hl : Ascending l) (hlimit : 0 < limit)
    (hpage : ∀ cursor, page cursor = .ok (fillPage limit accept (behind cursor l) [])) :
    CompleteWalk limit page (l.filterMap accept) := by
  obtain ⟨pages, hpages, hpaginates⟩ := walk_enumerates_behind hl hlimit hpage none
  rw [behind_none] at hpaginates
  exact ⟨pages, hpages, hpaginates⟩

end Order

end Radiata.Lib
