import Radiata.Lib.Scan
import Radiata.Storage.Pending

/-!
# Positioned scans

A snapshot lists the records of one namespace whose keys begin with a prefix, in ascending byte
order, and can start strictly behind a given key.  Three scans do this.  The JSON store ranges
over a map keyed by namespace and key and drops what does not match.  The redb store packs
namespace, a zero byte and the key into one composite key, ranges over two tables in lockstep
and stops at the first key outside the composite prefix.  The default of the snapshot trait
walks the plain scan and skips its head.

## Main Definitions

* `StoreContent` — the records of a store
* `RedbTables`, `RedbScan` — the composite tables and the walk over them
* `JsonScan` — the walk over the map
* `SkippingScan`, `defaultScanFrom` — the scan of the trait
* `StoreContent.positioned` — what a positioned scan is for

## Main Results

* `positioned_scans_agree` — every scan enumerates the positioned entries
-/

namespace Radiata.Storage

open Lib Protocol
open Reconcile (Hash)

/-! ## Records -/

structure EntryKey where
  ns : StoreNamespace
  key : StoreKey

namespace EntryKey

lemma toLex_injective :
    Function.Injective fun k : EntryKey => toLex (k.ns.value, k.key) := by
  rintro ⟨ns, key⟩ ⟨ns', key'⟩ h
  obtain ⟨hns, rfl⟩ := Prod.mk.inj (toLex.injective h)
  obtain rfl := QualifiedTag.ext_value hns
  rfl

/-- Places are ordered by namespace, and by key within one. -/
instance : LinearOrder EntryKey := LinearOrder.lift' _ toLex_injective

lemma mk_lt_mk_iff {ns : StoreNamespace} {a b : StoreKey} :
    (⟨ns, a⟩ : EntryKey) < ⟨ns, b⟩ ↔ a < b := by
  change toLex (ns.value, a) < toLex (ns.value, b) ↔ a < b
  simp [Prod.Lex.toLex_lt_toLex]

lemma mk_le_mk_iff {ns : StoreNamespace} {a b : StoreKey} :
    (⟨ns, a⟩ : EntryKey) ≤ ⟨ns, b⟩ ↔ a ≤ b := by
  rw [← not_lt, ← not_lt, mk_lt_mk_iff]

end EntryKey

abbrev StoreContent := OrdMap EntryKey StoreValue

structure StoreEntry where
  ns : StoreNamespace
  key : StoreKey
  value : StoreValue
  digest : Digest
deriving DecidableEq

variable (sha256 : Hash) (ns : StoreNamespace)

def StoreEntry.of (key : StoreKey) (value : StoreValue) : StoreEntry :=
  ⟨ns, key, value, digestStoreValue sha256 value⟩

abbrev StoreScan := List (Result StoreEntry)

/-! ## The redb store -/

variable (keyPrefix : List UInt8)

def compositePrefix : List UInt8 :=
  bytesOf ns.value ++ 0 :: keyPrefix

def compositeKey (key : StoreKey) : List UInt8 := compositePrefix ns key

structure RedbTables where
  entries : OrdMap (List UInt8) (List UInt8)
  digests : OrdMap (List UInt8) (List UInt8)

variable (content : StoreContent)

def redbTables : RedbTables where
  entries := content.relabel (fun k => compositeKey k.ns k.key) id
  digests := content.relabel (fun k => compositeKey k.ns k.key) fun value =>
    (digestStoreValue sha256 value).toList

structure RedbScan where
  range : List (List UInt8 × List UInt8)
  digestRange : List (List UInt8 × List UInt8)
  ns : StoreNamespace
  keyPrefix : List UInt8
  baseLen : ℕ

def redbLower (start : Option (List UInt8)) : LowerBound (List UInt8) :=
  let prefixBound := compositePrefix ns keyPrefix
  match start.map (compositePrefix ns) with
  | none => .included prefixBound
  | some start =>
    if start = prefixBound then .excluded prefixBound
    else if prefixBound < start then .excluded start
    else .included prefixBound

def RedbTables.scanFrom (tables : RedbTables) (ns : StoreNamespace) (keyPrefix : List UInt8)
    (start : Option (List UInt8)) : RedbScan where
  range := tables.entries.rangeFrom (redbLower ns keyPrefix start)
  digestRange := tables.digests.rangeFrom (redbLower ns keyPrefix start)
  ns := ns
  keyPrefix := compositePrefix ns keyPrefix
  baseLen := (bytesOf ns.value).length + 1

def RedbTables.scan (tables : RedbTables) (ns : StoreNamespace) (keyPrefix : List UInt8) :
    RedbScan :=
  tables.scanFrom ns keyPrefix none

def RedbScan.next (scan : RedbScan) : Result (Option StoreEntry) × RedbScan :=
  match scan.range, scan.digestRange with
  | (bytes, value) :: range, (digestKey, digest) :: digestRange =>
    let rest : RedbScan := { scan with range, digestRange }
    if bytes ≠ digestKey then (.error (storageCorrupt "storage scan"), rest)
    else if ¬ scan.keyPrefix <+: bytes then (.ok none, rest)
    else if h : digest.length = 32 then
      (.ok (some ⟨scan.ns, bytes.drop scan.baseLen, value, ⟨digest.toArray, h⟩⟩), rest)
    else (.error (storageCorrupt "storage scan"), rest)
  | [], [] => (.ok none, scan)
  | range, digestRange =>
    -- One table ended before the other.
    (.error (storageCorrupt "storage scan"),
      { scan with range := range.tail, digestRange := digestRange.tail })

def RedbScan.boxed (scan : RedbScan) : StoreScan := drain RedbScan.next (scan.range.length + 1) scan

/-! ## The JSON store -/

structure JsonScan where
  ns : StoreNamespace
  keyPrefix : List UInt8
  range : List (EntryKey × StoreValue)

def jsonLower : Option (List UInt8) → LowerBound EntryKey
  | none => .included ⟨ns, keyPrefix⟩
  | some start => .excluded ⟨ns, start⟩

def jsonScanFrom (ns : StoreNamespace) (keyPrefix : List UInt8)
    (start : Option (List UInt8)) : JsonScan :=
  ⟨ns, keyPrefix, content.rangeFrom (jsonLower ns keyPrefix start)⟩

def jsonScan (ns : StoreNamespace) (keyPrefix : List UInt8) : JsonScan :=
  jsonScanFrom content ns keyPrefix none

variable (scan : JsonScan)

def JsonScan.select : EntryKey × StoreValue → Option StoreEntry
  | (⟨ns, key⟩, value) =>
    if ns ≠ scan.ns ∨ ¬ scan.keyPrefix <+: key then none else some (.of sha256 ns key value)

def JsonScan.next : Result (Option StoreEntry) × JsonScan :=
  let found := findMap (scan.select sha256) scan.range
  (.ok found.1, { scan with range := found.2 })

def JsonScan.boxed : StoreScan :=
  drain (JsonScan.next sha256) (scan.range.length + 1) scan

/-! ## The default of the trait -/

structure SkippingScan where
  inner : StoreScan
  start : List UInt8

def skipHead (start : List UInt8) : StoreScan → Result (Option StoreEntry) × StoreScan
  | [] => (.ok none, [])
  | .error e :: inner => (.error e, inner)
  | .ok entry :: inner =>
    if entry.key ≤ start then skipHead start inner else (.ok (some entry), inner)

def SkippingScan.next (scan : SkippingScan) : Result (Option StoreEntry) × SkippingScan :=
  let answer := skipHead scan.start scan.inner
  (answer.1, { scan with inner := answer.2 })

def SkippingScan.boxed (scan : SkippingScan) : StoreScan :=
  drain SkippingScan.next (scan.inner.length + 1) scan

def defaultScanFrom (scan : StoreNamespace → List UInt8 → StoreScan) (ns : StoreNamespace)
    (keyPrefix : List UInt8) : Option (List UInt8) → StoreScan
  | none => scan ns keyPrefix
  | some start => SkippingScan.boxed ⟨scan ns keyPrefix, start⟩

/-! ## What a positioned scan is for -/

def Positioned (start : Option (List UInt8)) (key : StoreKey) : Prop :=
  keyPrefix <+: key ∧ ∀ s ∈ start, s < key

instance (keyPrefix : List UInt8) (start : Option (List UInt8)) (key : StoreKey) :
    Decidable (Positioned keyPrefix start key) :=
  inferInstanceAs (Decidable (_ ∧ _))

def StoreContent.positioned (ns : StoreNamespace) (keyPrefix : List UInt8)
    (start : Option (List UInt8)) : List StoreEntry :=
  content.entries.filterMap fun e =>
    if e.1.ns = ns ∧ Positioned keyPrefix start e.1.key then
      some (.of sha256 ns e.1.key e.2)
    else none

section Positions

variable {sha256 : Hash} {content : StoreContent} {ns : StoreNamespace} {keyPrefix : List UInt8}
  {start : Option (List UInt8)}

lemma mem_positioned {entry : StoreEntry} :
    entry ∈ content.positioned sha256 ns keyPrefix start ↔
      (⟨ns, entry.key⟩, entry.value) ∈ content ∧ Positioned keyPrefix start entry.key ∧
        entry = .of sha256 ns entry.key entry.value := by
  rw [StoreContent.positioned, List.mem_filterMap]
  constructor
  · rintro ⟨⟨⟨ns', key⟩, value⟩, hmem, hentry⟩
    split_ifs at hentry with h
    obtain ⟨rfl, hpositioned⟩ := h
    obtain rfl := Option.some.inj hentry
    exact ⟨hmem, hpositioned, rfl⟩
  · rintro ⟨hmem, hpositioned, hentry⟩
    exact ⟨_, hmem, by rw [if_pos ⟨rfl, hpositioned⟩, ← hentry]⟩

lemma positioned_pairwise :
    (content.positioned sha256 ns keyPrefix start).Pairwise fun a b => a.key < b.key := by
  refine List.Pairwise.filterMap _ ?_ content.ascending
  rintro ⟨⟨ns', key⟩, value⟩ ⟨⟨ns'', key'⟩, value'⟩ hlt a ha b hb
  split_ifs at ha hb with h h'
  obtain ⟨rfl, -⟩ := h
  obtain ⟨rfl, -⟩ := h'
  obtain rfl := Option.some.inj ha
  obtain rfl := Option.some.inj hb
  exact EntryKey.mk_lt_mk_iff.mp hlt

end Positions

/-! ## The scans enumerate the positioned entries -/

variable (sha256 : Hash) (content : StoreContent) (ns : StoreNamespace) (keyPrefix : List UInt8)
  (start : Option (List UInt8))

lemma JsonScan.enumerates (scan : JsonScan) :
    Enumerates (JsonScan.next sha256) scan (scan.range.filterMap (scan.select sha256)) := by
  obtain ⟨ns, keyPrefix, range⟩ := scan
  induction range with
  | nil => exact .ended rfl
  | cons e range ih =>
    let scan : JsonScan := ⟨ns, keyPrefix, range⟩
    change Enumerates _ _ ((e :: range).filterMap (scan.select sha256))
    cases h : scan.select sha256 e with
    | none =>
      rw [List.filterMap_cons_none h]
      refine .congr ?_ ih
      have hfind : findMap (scan.select sha256) (e :: range) =
          findMap (scan.select sha256) range := by rw [findMap, h]
      exact congrArg (fun found => (Except.ok found.1, { scan with range := found.2 })) hfind
    | some entry =>
      rw [List.filterMap_cons_some h]
      have hfind : findMap (scan.select sha256) (e :: range) = (some entry, range) := by
        rw [findMap, h]
      have hnext : JsonScan.next sha256 ⟨ns, keyPrefix, e :: range⟩ = (.ok (some entry), scan) :=
        congrArg (fun found => (Except.ok found.1, { scan with range := found.2 })) hfind
      exact .item hnext ih

lemma filterMap_select_eq_positioned :
    (jsonScanFrom content ns keyPrefix start).range.filterMap
        ((jsonScanFrom content ns keyPrefix start).select sha256) =
      content.positioned sha256 ns keyPrefix start := by
  rw [jsonScanFrom, OrdMap.rangeFrom, List.filterMap_filter, StoreContent.positioned]
  refine List.filterMap_congr fun e _ => ?_
  obtain ⟨⟨ns', key⟩, value⟩ := e
  by_cases hmatch : ns' = ns ∧ keyPrefix <+: key
  · obtain ⟨rfl, hfront⟩ := hmatch
    cases start with
    | none =>
      simp [JsonScan.select, jsonLower, LowerBound.Reached, EntryKey.mk_le_mk_iff, Positioned,
        hfront, le_of_isPrefix hfront]
    | some s =>
      simp [JsonScan.select, jsonLower, LowerBound.Reached, EntryKey.mk_lt_mk_iff, Positioned,
        hfront]
  · have hselect : ns' ≠ ns ∨ ¬ keyPrefix <+: key := not_and_or.mp hmatch
    have hpositioned : ¬ (ns' = ns ∧ Positioned keyPrefix start key) :=
      fun h => hmatch ⟨h.1, h.2.1⟩
    simp [JsonScan.select, hselect, hpositioned]

lemma jsonScanFrom_enumerates :
    Enumerates (JsonScan.next sha256) (jsonScanFrom content ns keyPrefix start)
      (content.positioned sha256 ns keyPrefix start) := by
  rw [← filterMap_select_eq_positioned]
  exact JsonScan.enumerates _ _

lemma SkippingScan.enumerates (entries : List StoreEntry) (start : List UInt8) :
    Enumerates SkippingScan.next ⟨entries.map .ok, start⟩
      (entries.filter fun entry => start < entry.key) := by
  induction entries with
  | nil => exact .ended rfl
  | cons entry entries ih =>
    by_cases h : entry.key ≤ start
    · rw [List.filter_cons_of_neg (by simpa using h)]
      refine .congr ?_ ih
      rw [next, next, List.map_cons, skipHead, if_pos h]
    · rw [List.filter_cons_of_pos (by simpa using h)]
      refine .item ?_ ih
      rw [next, List.map_cons, skipHead, if_neg h]

lemma filter_positioned (start : List UInt8) :
    (content.positioned sha256 ns keyPrefix none).filter (fun entry => start < entry.key) =
      content.positioned sha256 ns keyPrefix (some start) := by
  rw [StoreContent.positioned, List.filter_filterMap]
  refine List.filterMap_congr fun e _ => ?_
  by_cases h : e.1.ns = ns ∧ keyPrefix <+: e.1.key
  · by_cases hstart : start < e.1.key <;>
      simp [Positioned, h, StoreEntry.of, Option.filter, hstart]
  · have hnone (start : Option (List UInt8)) :
        ¬ (e.1.ns = ns ∧ Positioned keyPrefix start e.1.key) := fun h' => h ⟨h'.1, h'.2.1⟩
    rw [if_neg (hnone none), if_neg (hnone (some start))]
    rfl

lemma defaultScanFrom_eq {sha256 : Hash} {content : StoreContent}
    {scan : StoreNamespace → List UInt8 → StoreScan}
    (h : ∀ ns keyPrefix, scan ns keyPrefix = (content.positioned sha256 ns keyPrefix none).map .ok)
    (ns : StoreNamespace) (keyPrefix : List UInt8) (start : Option (List UInt8)) :
    defaultScanFrom scan ns keyPrefix start =
      (content.positioned sha256 ns keyPrefix start).map .ok := by
  cases start with
  | none => exact h ns keyPrefix
  | some start =>
    rw [defaultScanFrom, h, SkippingScan.boxed, List.length_map, ← filter_positioned]
    exact SkippingScan.enumerates _ _ _ (Nat.lt_succ_of_le (List.length_filter_le _ _))

/-! ### Composite keys -/

section RedbStore

variable {ns ns' : StoreNamespace} {keyPrefix : List UInt8} {key : StoreKey}

lemma isPrintable_of_isTagChar {c : Char} (h : isTagChar c = true) : isPrintable c = true := by
  simp only [isTagChar, Char.isLower, Char.isDigit, Bool.or_eq_true, Bool.and_eq_true,
    decide_eq_true_eq, beq_iff_eq, UInt32.le_iff_toNat_le] at h
  rw [isPrintable, Bool.and_eq_true, decide_eq_true_eq, decide_eq_true_eq]
  rcases h with (((⟨hlow, hhigh⟩ | ⟨hlow, hhigh⟩) | rfl) | rfl) | rfl
  · exact ⟨le_trans (by decide) hlow, le_trans hhigh (by decide)⟩
  · exact ⟨le_trans (by decide) hlow, le_trans hhigh (by decide)⟩
  all_goals decide

lemma zero_notMem_bytesOf (ns : StoreNamespace) : 0 ∉ bytesOf ns.value := by
  have hall : ns.value.all isPrintable = true :=
    List.all_eq_true.mpr fun c hc => isPrintable_of_isTagChar (ns.isTagChar_of_mem hc)
  rw [bytesOf_of_printable hall, List.mem_map]
  rintro ⟨c, hc, hzero⟩
  have hprintable := List.all_eq_true.mp hall c hc
  rw [isPrintable, Bool.and_eq_true, decide_eq_true_eq, decide_eq_true_eq] at hprintable
  have hnat := congrArg UInt8.toNat hzero
  rw [UInt8.toNat_ofNat', UInt8.toNat_zero] at hnat
  omega

lemma compositeKey_injective : Function.Injective fun k : EntryKey => compositeKey k.ns k.key := by
  rintro ⟨ns, key⟩ ⟨ns', key'⟩ h
  obtain ⟨hns, rfl⟩ := append_separator_inj (zero_notMem_bytesOf ns) (zero_notMem_bytesOf ns') h
  obtain rfl := QualifiedTag.ext_value (bytesOf_injective hns)
  rfl

lemma compositePrefix_isPrefix_iff :
    compositePrefix ns keyPrefix <+: compositeKey ns' key ↔ ns = ns' ∧ keyPrefix <+: key := by
  rw [compositePrefix, compositeKey, compositePrefix,
    append_separator_isPrefix_iff (zero_notMem_bytesOf ns) (zero_notMem_bytesOf ns')]
  exact and_congr_left' ⟨fun h => QualifiedTag.ext_value (bytesOf_injective h), fun h => h ▸ rfl⟩

lemma compositePrefix_lt_iff {a b : List UInt8} :
    compositePrefix ns a < compositePrefix ns b ↔ a < b := by
  rw [compositePrefix, compositePrefix, append_lt_append_iff, List.cons_lt_cons_self]

lemma drop_compositeKey : (compositeKey ns key).drop ((bytesOf ns.value).length + 1) = key := by
  rw [compositeKey, compositePrefix, List.drop_append]
  simp

variable {start : Option (List UInt8)}

lemma compositePrefix_le_of_reached {bytes : List UInt8}
    (h : (redbLower ns keyPrefix start).Reached bytes) : compositePrefix ns keyPrefix ≤ bytes := by
  cases start with
  | none => exact h
  | some s =>
    rw [redbLower, Option.map_some] at h
    dsimp only at h
    split_ifs at h with heq hlt
    · exact le_of_lt h
    · exact (hlt.trans h).le
    · exact h

lemma reached_redbLower_iff (hfront : keyPrefix <+: key) :
    (redbLower ns keyPrefix start).Reached (compositeKey ns key) ↔ ∀ s ∈ start, s < key := by
  have hle : compositePrefix ns keyPrefix ≤ compositeKey ns key :=
    le_of_isPrefix (compositePrefix_isPrefix_iff.mpr ⟨rfl, hfront⟩)
  cases start with
  | none => exact iff_of_true hle (by simp)
  | some s =>
    rw [redbLower, Option.map_some]
    simp only [Option.mem_some_iff, forall_eq']
    split_ifs with heq hlt
    · rw [← heq]
      exact compositePrefix_lt_iff
    · exact compositePrefix_lt_iff
    · -- The start is before the prefix, so every key with the prefix is behind it.
      have hbefore : compositePrefix ns s < compositePrefix ns keyPrefix :=
        lt_of_le_of_ne (not_lt.mp hlt) heq
      exact iff_of_true hle
        ((compositePrefix_lt_iff.mp hbefore).trans_le (le_of_isPrefix hfront))

/-! ### The walk over the tables -/

/-- With the digests of its values beside it, a range is walked to the first key outside the
prefix. -/
theorem RedbScan.enumerates {sha256 : Hash} (scan : RedbScan)
    (h : scan.digestRange = scan.range.map fun e => (e.1, (digestStoreValue sha256 e.2).toList)) :
    Enumerates RedbScan.next scan
      ((scan.range.takeWhile fun e => decide (scan.keyPrefix <+: e.1)).map fun e =>
        .of sha256 scan.ns (e.1.drop scan.baseLen) e.2) := by
  obtain ⟨range, digestRange, ns, keyPrefix, baseLen⟩ := scan
  dsimp only at h ⊢
  subst h
  induction range with
  | nil => exact .ended rfl
  | cons e range ih =>
    by_cases hfront : keyPrefix <+: e.1
    · rw [List.takeWhile_cons_of_pos (by simpa using hfront), List.map_cons]
      refine .item ?_ ih
      simp [next, hfront, StoreEntry.of, Vector.toList]
    · rw [List.takeWhile_cons_of_neg (by simpa using hfront)]
      refine .ended ?_
      simp [next, hfront]

lemma mem_redbTables_entries {sha256 : Hash} {content : StoreContent}
    {e : List UInt8 × List UInt8} :
    e ∈ (redbTables sha256 content).entries ↔
      ∃ record ∈ content.entries, compositeKey record.1.ns record.1.key = e.1 ∧ record.2 = e.2 :=
  OrdMap.mem_relabel compositeKey_injective

end RedbStore

lemma takeWhile_range_eq :
    (((redbTables sha256 content).entries.rangeFrom (redbLower ns keyPrefix start)).takeWhile
        fun e => decide (compositePrefix ns keyPrefix <+: e.1)) =
      (content.positioned sha256 ns keyPrefix start).map fun entry =>
        (compositeKey ns entry.key, entry.value) := by
  have hascending := (redbTables sha256 content).entries.rangeFrom_ascending
    (redbLower ns keyPrefix start)
  rw [hascending.takeWhile_isPrefix fun e he =>
    compositePrefix_le_of_reached (OrdMap.mem_rangeFrom.mp he).2]
  refine (hascending.filter _).ext ?_ fun e => ?_
  · rw [Ascending, List.pairwise_map]
    exact positioned_pairwise.imp compositePrefix_lt_iff.mpr
  · rw [List.mem_filter, decide_eq_true_eq, OrdMap.mem_rangeFrom, mem_redbTables_entries,
      List.mem_map]
    obtain ⟨bytes, value⟩ := e
    constructor
    · rintro ⟨⟨⟨⟨⟨ns', key⟩, value'⟩, hmem, hbytes, hvalue⟩, hreached⟩, hfront⟩
      dsimp only at hbytes hvalue hreached hfront
      subst hbytes hvalue
      obtain ⟨rfl, hkey⟩ := compositePrefix_isPrefix_iff.mp hfront
      exact ⟨.of sha256 ns key value',
        mem_positioned.mpr ⟨hmem, ⟨hkey, (reached_redbLower_iff hkey).mp hreached⟩, rfl⟩, rfl⟩
    · rintro ⟨entry, hentry, heq⟩
      obtain ⟨hmem, ⟨hfront, hstart⟩, -⟩ := mem_positioned.mp hentry
      obtain ⟨rfl, rfl⟩ := Prod.mk.inj heq
      exact ⟨⟨⟨_, hmem, rfl, rfl⟩, (reached_redbLower_iff hfront).mpr hstart⟩,
        compositePrefix_isPrefix_iff.mpr ⟨rfl, hfront⟩⟩

lemma redbScanFrom_enumerates :
    Enumerates RedbScan.next ((redbTables sha256 content).scanFrom ns keyPrefix start)
      (content.positioned sha256 ns keyPrefix start) := by
  have hdigests : (redbTables sha256 content).digests =
      (redbTables sha256 content).entries.mapValues fun _ value =>
        (digestStoreValue sha256 value).toList :=
    OrdMap.relabel_eq_mapValues compositeKey_injective fun value =>
      (digestStoreValue sha256 value).toList
  have hwalk := ((redbTables sha256 content).scanFrom ns keyPrefix start).enumerates
    (by rw [RedbTables.scanFrom, hdigests, OrdMap.rangeFrom_mapValues])
  have hentries : content.positioned sha256 ns keyPrefix start =
      ((content.positioned sha256 ns keyPrefix start).map fun entry =>
        (compositeKey ns entry.key, entry.value)).map fun e =>
          .of sha256 ns (e.1.drop ((bytesOf ns.value).length + 1)) e.2 := by
    rw [List.map_map]
    refine (List.map_id _).symm.trans (List.map_congr_left fun entry hentry => ?_)
    rw [Function.comp_apply, drop_compositeKey]
    exact (mem_positioned.mp hentry).2.2
  rw [hentries, ← takeWhile_range_eq]
  exact hwalk

/-! ## Agreement -/

lemma jsonScanFrom_boxed : (jsonScanFrom content ns keyPrefix start).boxed sha256 =
    (content.positioned sha256 ns keyPrefix start).map .ok := by
  refine jsonScanFrom_enumerates sha256 content ns keyPrefix start _ (Nat.lt_succ_of_le ?_)
  rw [← filterMap_select_eq_positioned]
  exact List.length_filterMap_le _ _

lemma redbScanFrom_boxed : ((redbTables sha256 content).scanFrom ns keyPrefix start).boxed =
    (content.positioned sha256 ns keyPrefix start).map .ok := by
  refine redbScanFrom_enumerates sha256 content ns keyPrefix start _ (Nat.lt_succ_of_le ?_)
  have hlength := congrArg List.length (takeWhile_range_eq sha256 content ns keyPrefix start)
  rw [List.length_map] at hlength
  rw [← hlength]
  exact (List.takeWhile_prefix _).length_le

/-- **Positioned scans agree**: over every content, the scan of the redb store, the scan of the
JSON store and the default scan over either's plain one enumerate the same entries, which are
the records of the namespace whose key begins with the prefix and lies strictly behind the
start, each once and in ascending byte order. -/
theorem positioned_scans_agree (sha256 : Hash) (content : StoreContent) (ns : StoreNamespace)
    (keyPrefix : List UInt8) (start : Option (List UInt8)) :
    ∃ entries : List StoreEntry,
      Enumerates RedbScan.next ((redbTables sha256 content).scanFrom ns keyPrefix start) entries ∧
      Enumerates (JsonScan.next sha256) (jsonScanFrom content ns keyPrefix start) entries ∧
      defaultScanFrom (fun ns keyPrefix => ((redbTables sha256 content).scan ns keyPrefix).boxed)
        ns keyPrefix start = entries.map .ok ∧
      defaultScanFrom (fun ns keyPrefix => (jsonScan content ns keyPrefix).boxed sha256)
        ns keyPrefix start = entries.map .ok ∧
      entries.Pairwise (fun a b => a.key < b.key) ∧
      ∀ entry, entry ∈ entries ↔
        content.get? ⟨ns, entry.key⟩ = some entry.value ∧ keyPrefix <+: entry.key ∧
          (∀ s ∈ start, s < entry.key) ∧ entry.ns = ns ∧
          entry.digest = digestStoreValue sha256 entry.value := by
  refine ⟨content.positioned sha256 ns keyPrefix start,
    redbScanFrom_enumerates sha256 content ns keyPrefix start,
    jsonScanFrom_enumerates sha256 content ns keyPrefix start,
    defaultScanFrom_eq (fun ns keyPrefix => redbScanFrom_boxed sha256 content ns keyPrefix none) _ _
      _,
    defaultScanFrom_eq (fun ns keyPrefix => jsonScanFrom_boxed sha256 content ns keyPrefix none) _ _
      _,
    positioned_pairwise, fun entry => ?_⟩
  rw [mem_positioned, OrdMap.get?_eq_some, Positioned, and_assoc]
  obtain ⟨ns', key, value, digest⟩ := entry
  simp [StoreEntry.of]

end Radiata.Storage
