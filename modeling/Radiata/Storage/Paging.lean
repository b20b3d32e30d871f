import Radiata.Lib.Paging
import Radiata.Storage.Scan

/-!
# Paged views

Storage scans and tables in memory are read in pages with a cursor, under one rule: a page at
capacity continues only when another raw entry follows, and the next page starts strictly behind
the last key that was processed.  A cursor that leaves the process is never empty, so a page
cannot continue behind the empty key.

## Main Definitions

* `StoreSnapshot` — a snapshot that keeps the contract of its scans
* `scanPaged`, `pageKeys` — a page of a scan, and of a table
* `finishPage`, `selectPage` — a page with its public cursor

## Main Results

* `cursor_walks_complete` — a walk over either delivers what is accepted, in full pages
-/

namespace Radiata.Storage

open Lib Protocol
open Reconcile (Hash)

/-! ## Snapshots -/

structure StoreSnapshot (sha256 : Hash) where
  content : StoreContent
  scanFrom : StoreNamespace → List UInt8 → Option (List UInt8) → StoreScan
  positioned : ∀ ns keyPrefix start,
    scanFrom ns keyPrefix start = (content.positioned sha256 ns keyPrefix start).map .ok

def redbSnapshot (sha256 : Hash) (content : StoreContent) : StoreSnapshot sha256 where
  content := content
  scanFrom ns keyPrefix start := ((redbTables sha256 content).scanFrom ns keyPrefix start).boxed
  positioned := redbScanFrom_boxed sha256 content

/-! ## Pages -/

section Pages

variable {T : Type}

def scanPagedLoop (limit : ℕ) (select : List UInt8 → List UInt8 → Result (Option T)) :
    StoreScan → List T → Result (Paged (List UInt8) T)
  | [], items => .ok ⟨items, none⟩
  | .error e :: _, _ => .error e
  | .ok entry :: scan, items =>
    match select entry.key entry.value with
    | .error e => .error e
    | .ok none => scanPagedLoop limit select scan items
    | .ok (some item) =>
      let items := items ++ [item]
      if limit ≤ items.length then
        -- One further entry is read to learn whether there is more.
        match scan with
        | [] => .ok ⟨items, none⟩
        | .ok _ :: _ => .ok ⟨items, some entry.key⟩
        | .error e :: _ => .error e
      else scanPagedLoop limit select scan items

def scanPaged {sha256 : Hash} (snapshot : StoreSnapshot sha256) (ns : StoreNamespace)
    (keyPrefix : List UInt8) (cursor : Option (List UInt8)) (limit : ℕ)
    (select : List UInt8 → List UInt8 → Result (Option T)) : Result (Paged (List UInt8) T) :=
  scanPagedLoop limit select (snapshot.scanFrom ns keyPrefix cursor) []

def pageKeysLoop (limit : ℕ) : List (List UInt8 × T) → List T → Paged (List UInt8) T
  | [], items => ⟨items, none⟩
  | (key, item) :: entries, items =>
    let items := items ++ [item]
    if limit ≤ items.length then
      ⟨items, if entries.head?.isSome then some key else none⟩
    else pageKeysLoop limit entries items

def pageKeys (entries : List (List UInt8 × T)) (cursor : Option (List UInt8)) (limit : ℕ) :
    Paged (List UInt8) T :=
  let start := cursor.elim 0 fun cursor => (entries.takeWhile fun e => e.1 ≤ cursor).length
  pageKeysLoop limit (entries.drop start) []

/-! ## Public cursors -/

/-! ## Walks -/

def accepted (select : List UInt8 → List UInt8 → Result (Option T))
    (entry : List UInt8 × List UInt8) : Option T :=
  match select entry.1 entry.2 with
  | .ok item => item
  | .error _ => none

def StoreEntry.row (entry : StoreEntry) : List UInt8 × List UInt8 := (entry.key, entry.value)

variable {select : List UInt8 → List UInt8 → Result (Option T)}

lemma scanPagedLoop_eq_fillPage (hselect : ∀ key value, ∃ item, select key value = .ok item)
    (limit : ℕ) (entries : List StoreEntry) (items : List T) :
    scanPagedLoop limit select (entries.map .ok) items =
      .ok (fillPage limit (accepted select) (entries.map StoreEntry.row) items) := by
  induction entries generalizing items with
  | nil => rfl
  | cons entry entries ih =>
    obtain ⟨item, hitem⟩ := hselect entry.key entry.value
    have haccepted : accepted select entry.row = item := by
      rw [accepted, StoreEntry.row, hitem]
    rw [List.map_cons, List.map_cons, scanPagedLoop, fillPage, hitem, haccepted]
    cases item with
    | none => exact ih items
    | some item =>
      dsimp only
      by_cases hfull : limit ≤ (items ++ [item]).length
      · rw [if_pos hfull, if_pos hfull]
        cases entries with
        | nil => rfl
        | cons other entries => rfl
      · rw [if_neg hfull, if_neg hfull]
        exact ih _

lemma map_row_positioned (sha256 : Hash) (content : StoreContent) (ns : StoreNamespace)
    (keyPrefix : List UInt8) (cursor : Option (List UInt8)) :
    (content.positioned sha256 ns keyPrefix cursor).map StoreEntry.row =
      behind cursor ((content.positioned sha256 ns keyPrefix none).map StoreEntry.row) := by
  cases cursor with
  | none => rw [behind_none]
  | some start =>
    rw [← filter_positioned, behind, List.filter_map]
    congr 1
    refine List.filter_congr fun entry _ => decide_eq_decide.mpr ?_
    simp [StoreEntry.row]

lemma map_row_ascending (sha256 : Hash) (content : StoreContent) (ns : StoreNamespace)
    (keyPrefix : List UInt8) (cursor : Option (List UInt8)) :
    Ascending ((content.positioned sha256 ns keyPrefix cursor).map StoreEntry.row) := by
  rw [Ascending, List.pairwise_map]
  exact positioned_pairwise

lemma scanPaged_eq_fillPage {sha256 : Hash} (snapshot : StoreSnapshot sha256)
    (hselect : ∀ key value, ∃ item, select key value = .ok item) (ns : StoreNamespace)
    (keyPrefix : List UInt8) (cursor : Option (List UInt8)) (limit : ℕ) :
    scanPaged snapshot ns keyPrefix cursor limit select =
      .ok (fillPage limit (accepted select)
        (behind cursor ((snapshot.content.positioned sha256 ns keyPrefix none).map StoreEntry.row))
        []) := by
  rw [scanPaged, snapshot.positioned, scanPagedLoop_eq_fillPage hselect, map_row_positioned]

lemma pageKeysLoop_eq_fillPage (limit : ℕ) (entries : List (List UInt8 × T)) (items : List T) :
    pageKeysLoop limit entries items = fillPage limit (fun e => some e.2) entries items := by
  induction entries generalizing items with
  | nil => rfl
  | cons entry entries ih =>
    obtain ⟨key, item⟩ := entry
    rw [pageKeysLoop, fillPage]
    dsimp only
    by_cases hfull : limit ≤ (items ++ [item]).length
    · rw [if_pos hfull, if_pos hfull]
      cases entries with
      | nil => rfl
      | cons other entries => rfl
    · rw [if_neg hfull, if_neg hfull]
      exact ih _

lemma pageKeys_eq_fillPage {entries : List (List UInt8 × T)} (h : Ascending entries)
    (cursor : Option (List UInt8)) (limit : ℕ) :
    pageKeys entries cursor limit =
      fillPage limit (fun e => some e.2) (behind cursor entries) [] := by
  rw [pageKeys, pageKeysLoop_eq_fillPage]
  cases cursor with
  | none => rw [behind_none, Option.elim_none, List.drop_zero]
  | some cursor => rw [← drop_takeWhile_eq_behind h, Option.elim_some]

/-- **Cursor walks are complete**: over every snapshot and every selection that never fails, the
pages of a scan end and carry exactly what is selected from the records of the namespace under
the prefix, in ascending key order and each once, in pages that are full up to the last one.
So do the pages of every table in ascending key order. -/
theorem cursor_walks_complete {sha256 : Hash} (snapshot : StoreSnapshot sha256)
    (ns : StoreNamespace) (keyPrefix : List UInt8) {limit : ℕ} (hlimit : 1 ≤ limit)
    (select : List UInt8 → List UInt8 → Result (Option T))
    (hselect : ∀ key value, ∃ item, select key value = .ok item) :
    (∃ rows : List (List UInt8 × List UInt8), Ascending rows ∧
      (∀ key value, (key, value) ∈ rows ↔
        snapshot.content.get? ⟨ns, key⟩ = some value ∧ keyPrefix <+: key) ∧
      CompleteWalk limit (fun cursor => scanPaged snapshot ns keyPrefix cursor limit select)
        (rows.filterMap (accepted select))) ∧
    ∀ table : List (List UInt8 × T), Ascending table →
      CompleteWalk limit (fun cursor => (.ok (pageKeys table cursor limit) : Result _))
        (table.map Prod.snd) := by
  refine ⟨⟨_, map_row_ascending sha256 snapshot.content ns keyPrefix none, fun key value => ?_,
    completeWalk_of_fillPage (map_row_ascending _ _ _ _ _) hlimit fun cursor =>
      scanPaged_eq_fillPage snapshot hselect ns keyPrefix cursor limit⟩, fun table htable => ?_⟩
  · rw [List.mem_map, OrdMap.get?_eq_some]
    constructor
    · rintro ⟨entry, hentry, heq⟩
      obtain ⟨rfl, rfl⟩ := Prod.mk.inj heq
      obtain ⟨hmem, hpositioned, -⟩ := mem_positioned.mp hentry
      exact ⟨hmem, hpositioned.1⟩
    · rintro ⟨hmem, hfront⟩
      exact ⟨.of sha256 ns key value, mem_positioned.mpr ⟨hmem, ⟨hfront, by simp⟩, rfl⟩, rfl⟩
  · have hwalk : CompleteWalk limit (fun cursor => (.ok (pageKeys table cursor limit) : Result _))
        (table.filterMap fun e => some e.2) :=
      completeWalk_of_fillPage htable hlimit fun cursor => by rw [pageKeys_eq_fillPage htable]
    rwa [List.filterMap_eq_map'] at hwalk

end Pages

/-! ## A sample -/

def sampleContent : StoreContent :=
  ((OrdMap.empty.insert ⟨pendingNamespace, []⟩ [1]).insert ⟨pendingNamespace, [0xFF]⟩ [2]).insert
    ⟨pendingNamespace, [0xFF, 0xFF]⟩ [3]

def sampleSelect (_ value : List UInt8) : Result (Option (List UInt8)) :=
  .ok (if value = [2] then none else some value)

def sampleTable : List (List UInt8 × List UInt8) := [([], [1]), ([0xFF], [2])]

/-- Walks over a table and over a store, with one item a page. -/
theorem sample_walks_complete :
    CompleteWalk 1 (fun cursor => (.ok (pageKeys sampleTable cursor 1) : Result _)) [[1], [2]] ∧
    ∃ rows : List (List UInt8 × List UInt8),
      CompleteWalk 1 (fun cursor => scanPaged (redbSnapshot (fun _ => Vector.replicate 32 0)
          sampleContent) pendingNamespace [0xFF] cursor 1 sampleSelect)
        (rows.filterMap (accepted sampleSelect)) := by
  have hwalks := cursor_walks_complete
    (redbSnapshot (fun _ => Vector.replicate 32 0) sampleContent) pendingNamespace [0xFF]
    (le_refl 1) sampleSelect fun _ _ => ⟨_, rfl⟩
  obtain ⟨⟨rows, -, -, hwalk⟩, htables⟩ := hwalks
  have htable : Ascending sampleTable := by
    rw [Ascending, sampleTable, List.pairwise_pair]
    decide
  exact ⟨htables sampleTable htable, rows, hwalk⟩

end Radiata.Storage
