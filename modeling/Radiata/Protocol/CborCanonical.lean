import Radiata.Protocol.CborHead

/-!
# The validator accepts exactly deterministic CBOR

Two inductions around the inversion of one head.  Completeness (`loop_item`)
follows the item: the loop consumes an item's encoding and arrives at the item's
completion, whatever frames surround it.  Soundness (`loop_sound`) follows the
turns of the loop: a run that succeeds has consumed the encoding of some item and
then completed it.
-/

namespace Radiata.Protocol

open Lib.Cbor
open Item (encode encodeEntries encodeList maxCount)
open List (append_assoc append_nil length_append mem_cons_self)

/-! ## The loop -/

/-- What the loop does once an item has ended: complete it, and either stop or go
on in the container it belongs to. -/
def finishItem (bytes : List UInt8) (limits : CborLimits) (fuel position : ℕ)
    (stack : List ContainerFrame) : Result ℕ := do
  let (complete, stack) ← completeItem position bytes stack
  if complete then pure position else validateLoop bytes limits fuel position stack

lemma length_markKeyStart (position : ℕ) (stack : List ContainerFrame) :
    (markKeyStart position stack).length = stack.length := by
  unfold markKeyStart
  split <;> rfl

structure Fits (limits : CborLimits) (depth : ℕ) (i : Item) : Prop where
  depth_le : i.depth = 0 ∨ depth + i.depth ≤ limits.maxDepth.toNat
  count_le : i.maxCount ≤ limits.maxCollectionItems.toNat
  ascend : i.KeysAscend

variable {limits : CborLimits}

section Fits

variable {depth : ℕ}

lemma Fits.scalar {i : Item} (hi : i.depth = 0) : Fits limits depth i := by
  cases i with
  | array items | map entries => simp [Item.depth] at hi
  | _ => exact ⟨Or.inl hi, Nat.zero_le _, trivial⟩

lemma fits_array {items : List Item} :
    Fits limits depth (.array items) ↔ depth < limits.maxDepth.toNat ∧
      items.length ≤ limits.maxCollectionItems.toNat ∧
      ∀ i ∈ items, Fits limits (depth + 1) i := by
  have hdepth : depth + (Item.depthList items + 1) ≤ limits.maxDepth.toNat ↔
      depth < limits.maxDepth.toNat ∧
        ∀ i ∈ items, i.depth ≤ limits.maxDepth.toNat - (depth + 1) := by
    rw [← Item.depthList_le_iff]
    omega
  constructor
  · rintro ⟨hd, hc, ha⟩
    have hd' := hdepth.mp (hd.resolve_left (by simp [Item.depth]))
    rw [maxCount, max_le_iff, Item.maxCountList_le_iff] at hc
    rw [Item.KeysAscend, Item.keysAscendList_iff] at ha
    refine ⟨hd'.1, hc.1, fun i hi => ⟨?_, hc.2 i hi, ha i hi⟩⟩
    have := hd'.2 i hi
    omega
  · rintro ⟨hd, hc, hi⟩
    refine ⟨Or.inr (hdepth.mpr ⟨hd, fun i h => ?_⟩), ?_, ?_⟩
    · have := (hi i h).depth_le
      omega
    · rw [maxCount, max_le_iff, Item.maxCountList_le_iff]
      exact ⟨hc, fun i h => (hi i h).count_le⟩
    · rw [Item.KeysAscend, Item.keysAscendList_iff]
      exact fun i h => (hi i h).ascend

/-- A map fits when it may be opened here, its keys ascend, and its keys and values
fit inside it. -/
theorem fits_map {entries : List (Item × Item)} :
    Fits limits depth (.map entries) ↔ depth < limits.maxDepth.toNat ∧
      entries.length ≤ limits.maxCollectionItems.toNat ∧
      (entries.map fun e => e.1.encode).Pairwise (· < ·) ∧
      ∀ e ∈ entries, Fits limits (depth + 1) e.1 ∧ Fits limits (depth + 1) e.2 := by
  have hdepth : depth + (Item.depthEntries entries + 1) ≤ limits.maxDepth.toNat ↔
      depth < limits.maxDepth.toNat ∧ ∀ e ∈ entries,
        e.1.depth ≤ limits.maxDepth.toNat - (depth + 1) ∧
        e.2.depth ≤ limits.maxDepth.toNat - (depth + 1) := by
    rw [← Item.depthEntries_le_iff]
    omega
  constructor
  · rintro ⟨hd, hc, ha⟩
    have hd' := hdepth.mp (hd.resolve_left (by simp [Item.depth]))
    rw [maxCount, max_le_iff, Item.maxCountEntries_le_iff] at hc
    rw [Item.KeysAscend, Item.keysAscendEntries_iff] at ha
    refine ⟨hd'.1, hc.1, ha.1, fun e he => ?_⟩
    have := hd'.2 e he
    exact ⟨⟨by omega, (hc.2 e he).1, (ha.2 e he).1⟩, ⟨by omega, (hc.2 e he).2, (ha.2 e he).2⟩⟩
  · rintro ⟨hd, hc, hk, he⟩
    refine ⟨Or.inr (hdepth.mpr ⟨hd, fun e h => ?_⟩), ?_, ?_⟩
    · have h1 := (he e h).1.depth_le
      have h2 := (he e h).2.depth_le
      omega
    · rw [maxCount, max_le_iff, Item.maxCountEntries_le_iff]
      exact ⟨hc, fun e h => ⟨(he e h).1.count_le, (he e h).2.count_le⟩⟩
    · rw [Item.KeysAscend, Item.keysAscendEntries_iff]
      exact ⟨hk, fun e h => ⟨(he e h).1.ascend, (he e h).2.ascend⟩⟩

end Fits

variable {bytes : List UInt8} {position : ℕ} {stack : List ContainerFrame}
  {previousKey : Option (ℕ × ℕ)}

section Turns

variable {fuel : ℕ}

lemma validateLoop_whole {container : Option ContainerFrame} {stop : ℕ}
    (h : validateHead bytes limits stack.length position = .ok (container, stop))
    (hwhole : ∀ frame, container = some frame → frame.remaining = 0) :
    validateLoop bytes limits (fuel + 1) position stack =
      finishItem bytes limits fuel stop (markKeyStart position stack) := by
  rw [validateLoop]
  simp only [length_markKeyStart, h, ok_bind]
  cases container with
  | none => rfl
  | some frame =>
    simp only [hwhole frame rfl, ne_eq, not_true_eq_false, if_false]
    rfl

lemma validateLoop_open {frame : ContainerFrame} {stop : ℕ}
    (h : validateHead bytes limits stack.length position = .ok (some frame, stop))
    (hopen : frame.remaining ≠ 0) :
    validateLoop bytes limits (fuel + 1) position stack =
      validateLoop bytes limits fuel stop (frame :: markKeyStart position stack) := by
  rw [validateLoop]
  simp only [length_markKeyStart, h, ok_bind, if_pos hopen]

lemma finishItem_array (remaining : ℕ) :
    finishItem bytes limits fuel position (.array (remaining + 1) :: stack) =
      if remaining = 0 then finishItem bytes limits fuel position stack
      else validateLoop bytes limits fuel position (.array remaining :: stack) := by
  rw [finishItem, completeItem]
  split_ifs <;> rfl

lemma finishItem_value (remaining : ℕ) (keyStart : Option ℕ) (previousKey : Option (ℕ × ℕ)) :
    finishItem bytes limits fuel position
        (.map (remaining + 1) false keyStart previousKey :: stack) =
      if remaining = 0 then finishItem bytes limits fuel position stack
      else validateLoop bytes limits fuel position
        (.map remaining true keyStart previousKey :: stack) := by
  rw [finishItem, completeItem]
  split_ifs <;> rfl

def KeyFollows (bytes key : List UInt8) (previousKey : Option (ℕ × ℕ)) : Prop :=
  ∀ start stop, previousKey = some (start, stop) →
    ∃ previous, slice bytes start stop = some previous ∧ previous < key

variable {key : List UInt8}

lemma checkKeyOrder_eq_ok :
    checkKeyOrder bytes key previousKey = .ok () ↔ KeyFollows bytes key previousKey := by
  cases previousKey with
  | none =>
    refine iff_of_true rfl ?_
    intro start stop h
    simp at h
  | some bounds =>
    obtain ⟨start, stop⟩ := bounds
    rw [checkKeyOrder, bind_eq_ok]
    constructor
    · rintro ⟨previous, hslice, h⟩ start' stop' heq
      obtain ⟨rfl, rfl⟩ := Prod.mk.inj (Option.some.inj heq)
      split_ifs at h with hge
      exact ⟨previous, orInvalid_eq_ok.mp hslice, by simpa using hge⟩
    · intro h
      obtain ⟨previous, hslice, hlt⟩ := h start stop rfl
      refine ⟨previous, orInvalid_eq_ok.mpr hslice, ?_⟩
      rw [if_neg (by simpa using hlt)]
      rfl

lemma finishItem_key {start remaining : ℕ} (hslice : slice bytes start position = some key)
    {result : ℕ} : finishItem bytes limits fuel position
        (.map remaining true (some start) previousKey :: stack) = .ok result ↔
      KeyFollows bytes key previousKey ∧
        validateLoop bytes limits fuel position
          (.map remaining false none (some (start, position)) :: stack) = .ok result := by
  rw [← checkKeyOrder_eq_ok]
  simp only [finishItem, completeItem, orInvalid_some, ok_bind, hslice]
  cases checkKeyOrder bytes key previousKey with
  | error e => simp [bind, Except.bind]
  | ok u => simp [pure, Except.pure]

lemma finishItem_key_eq {start remaining : ℕ} (hslice : slice bytes start position = some key)
    (hfollows : KeyFollows bytes key previousKey) : finishItem bytes limits fuel position
        (.map remaining true (some start) previousKey :: stack) =
      validateLoop bytes limits fuel position
        (.map remaining false none (some (start, position)) :: stack) := by
  simp only [finishItem, completeItem, orInvalid_some, ok_bind, hslice,
    checkKeyOrder_eq_ok.mpr hfollows]
  rfl

end Turns

/-! ## Completeness -/

section Completeness

variable {rest : List UInt8}

/-- From `position` with `stack`, the loop arrives at the completion of an item at
`position'` with `stack'`, in at most one turn per byte between them. -/
def Consumes (bytes : List UInt8) (limits : CborLimits) (position : ℕ)
    (stack : List ContainerFrame) (size : ℕ) (stack' : List ContainerFrame) : Prop :=
  ∃ turns ≤ size, ∀ fuel, validateLoop bytes limits (fuel + turns) position stack =
    finishItem bytes limits fuel (position + size) stack'

variable {size : ℕ}

lemma Consumes.of_head (hlen : bytes.length < 2 ^ 64) {container : Option ContainerFrame}
    (hpos : 0 < size) (hhead : Head limits stack.length (bytes.drop position) container size)
    (hwhole : ∀ frame, container = some frame → frame.remaining = 0) :
    Consumes bytes limits position stack size (markKeyStart position stack) :=
  ⟨1, hpos, fun _ => validateLoop_whole ((validateHead_iff hlen).mpr ⟨_, hhead, rfl⟩) hwhole⟩

lemma Consumes.open (hlen : bytes.length < 2 ^ 64) {frame : ContainerFrame} {len : ℕ}
    (hpos : 0 < len) (hhead : Head limits stack.length (bytes.drop position) (some frame) len)
    (hopen : frame.remaining ≠ 0)
    (h : Consumes bytes limits (position + len) (frame :: markKeyStart position stack) size
      (markKeyStart position stack)) :
    Consumes bytes limits position stack (len + size) (markKeyStart position stack) := by
  obtain ⟨n, hn, h⟩ := h
  refine ⟨n + 1, by omega, fun fuel => ?_⟩
  rw [← add_assoc, validateLoop_open ((validateHead_iff hlen).mpr ⟨_, hhead, rfl⟩) hopen, h,
    add_assoc]

lemma Consumes.array_last
    (h : Consumes bytes limits position (.array 1 :: stack) size (.array 1 :: stack)) :
    Consumes bytes limits position (.array 1 :: stack) size stack := by
  obtain ⟨n, hn, h⟩ := h
  refine ⟨n, hn, fun fuel => ?_⟩
  rw [h, finishItem_array, if_pos rfl]

variable {size' remaining : ℕ} {stack' : List ContainerFrame}

lemma Consumes.array_cons (hrest : remaining ≠ 0)
    (hfirst : Consumes bytes limits position (.array (remaining + 1) :: stack) size (.array
      (remaining + 1) :: stack))
    (hothers : Consumes bytes limits (position + size) (.array remaining :: stack) size' stack') :
    Consumes bytes limits position (.array (remaining + 1) :: stack) (size + size') stack' := by
  obtain ⟨n, hn, h⟩ := hfirst
  obtain ⟨n', hn', h'⟩ := hothers
  refine ⟨n' + n, by omega, fun fuel => ?_⟩
  rw [← add_assoc, h, finishItem_array, if_neg hrest, h', add_assoc]

lemma Consumes.entry {key : List UInt8}
    (hslice : slice bytes position (position + size) = some key)
    (hfollows : KeyFollows bytes key previousKey)
    (hkey : Consumes bytes limits position (.map remaining true none previousKey :: stack) size
      (.map remaining true (some position) previousKey :: stack))
    (hvalue : Consumes bytes limits (position + size) (.map remaining false none (some (position,
      position + size)) :: stack) size' (.map remaining false none (some (position, position +
      size)) :: stack)) :
    Consumes bytes limits position (.map remaining true none previousKey :: stack) (size + size')
      (.map remaining false none (some (position, position + size)) :: stack) := by
  obtain ⟨n, hn, h⟩ := hkey
  obtain ⟨n', hn', h'⟩ := hvalue
  refine ⟨n' + n, by omega, fun fuel => ?_⟩
  rw [← add_assoc, h, finishItem_key_eq hslice hfollows, h', add_assoc]

variable {bounds : Option (ℕ × ℕ)}

lemma Consumes.map_last
    (h : Consumes bytes limits position (.map 1 true none previousKey :: stack) size (.map 1 false
      none bounds :: stack)) :
    Consumes bytes limits position (.map 1 true none previousKey :: stack) size stack := by
  obtain ⟨n, hn, h⟩ := h
  refine ⟨n, hn, fun fuel => ?_⟩
  rw [h, finishItem_value, if_pos rfl]

lemma Consumes.map_cons (hrest : remaining ≠ 0)
    (hfirst : Consumes bytes limits position (.map (remaining + 1) true none previousKey :: stack)
      size (.map (remaining + 1) false none bounds :: stack))
    (hothers : Consumes bytes limits (position + size) (.map remaining true none bounds :: stack)
      size' stack') :
    Consumes bytes limits position (.map (remaining + 1) true none previousKey :: stack)
      (size + size') stack' := by
  obtain ⟨n, hn, h⟩ := hfirst
  obtain ⟨n', hn', h'⟩ := hothers
  refine ⟨n' + n, by omega, fun fuel => ?_⟩
  rw [← add_assoc, h, finishItem_value, if_neg hrest, h', add_assoc]

lemma loop_scalar (hlen : bytes.length < 2 ^ 64) {i : Item} (hi : i.depth = 0)
    (hdrop : bytes.drop position = i.encode ++ rest) :
    Consumes bytes limits position stack i.encode.length (markKeyStart position stack) := by
  have hhead : Head limits stack.length (bytes.drop position) none i.encode.length := by
    rw [hdrop]
    exact .scalar i hi rest
  exact .of_head hlen (Item.length_encode_pos i) hhead (by simp)

mutual

lemma loop_item (hlen : bytes.length < 2 ^ 64) : ∀ (i : Item) (position : ℕ)
    (stack : List ContainerFrame) (rest : List UInt8), position ≤ bytes.length →
    bytes.drop position = i.encode ++ rest → Fits limits stack.length i →
    Consumes bytes limits position stack i.encode.length (markKeyStart position stack)
  | .array items, position, stack, rest, hpos, hdrop, hfits => by
      obtain ⟨hdepth, hcount, helements⟩ := fits_array.mp hfits
      have hmax := limits.maxCollectionItems.toNat_lt
      rw [encode, append_assoc] at hdrop
      have hhead : Head limits stack.length (bytes.drop position) (some (.array items.length))
          (headerLen items.length) := by
        rw [hdrop]
        exact .array _ (by omega) hdepth hcount _
      rw [encode, length_append, length_header]
      by_cases hnil : items = []
      · subst hnil
        change Consumes bytes limits position stack (headerLen 0) _
        exact .of_head hlen (headerLen_pos _) hhead (by rintro frame ⟨⟩; rfl)
      · refine .open hlen (headerLen_pos _) hhead (by simpa [ContainerFrame.remaining]) ?_
        have hdrop' := drop_of_drop hdrop
        have hpos' := le_length_of_drop hpos hdrop
        rw [length_header] at hdrop' hpos'
        exact loop_list hlen items hnil _ _ rest hpos' hdrop' (by rwa [length_markKeyStart])
  | .map entries, position, stack, rest, hpos, hdrop, hfits => by
      obtain ⟨hdepth, hcount, hkeys, helements⟩ := fits_map.mp hfits
      have hmax := limits.maxCollectionItems.toNat_lt
      rw [encode, append_assoc] at hdrop
      have hhead : Head limits stack.length (bytes.drop position)
          (some (.map entries.length true none none)) (headerLen entries.length) := by
        rw [hdrop]
        exact .map _ (by omega) hdepth hcount _
      rw [encode, length_append, length_header]
      by_cases hnil : entries = []
      · subst hnil
        change Consumes bytes limits position stack (headerLen 0) _
        exact .of_head hlen (headerLen_pos _) hhead (by rintro frame ⟨⟩; rfl)
      · refine .open hlen (headerLen_pos _) hhead (by simpa [ContainerFrame.remaining]) ?_
        have hdrop' := drop_of_drop hdrop
        have hpos' := le_length_of_drop hpos hdrop
        rw [length_header] at hdrop' hpos'
        exact loop_entries hlen entries hnil _ _ rest none hpos' hdrop' hkeys
          (fun e _ start stop h => by simp at h) (by rwa [length_markKeyStart])
  | .uint _, _, _, _, _, hdrop, _ => loop_scalar hlen rfl hdrop
  | .nint _, _, _, _, _, hdrop, _ => loop_scalar hlen rfl hdrop
  | .bytes _, _, _, _, _, hdrop, _ => loop_scalar hlen rfl hdrop
  | .text _, _, _, _, _, hdrop, _ => loop_scalar hlen rfl hdrop
  | .bool _, _, _, _, _, hdrop, _ => loop_scalar hlen rfl hdrop
  | .null, _, _, _, _, hdrop, _ => loop_scalar hlen rfl hdrop
termination_by structural i => i

lemma loop_list (hlen : bytes.length < 2 ^ 64) : ∀ (items : List Item), items ≠ [] →
    ∀ (position : ℕ) (stack : List ContainerFrame) (rest : List UInt8),
    position ≤ bytes.length → bytes.drop position = encodeList items ++ rest →
    (∀ i ∈ items, Fits limits (stack.length + 1) i) →
    Consumes bytes limits position (.array items.length :: stack) (encodeList items).length
      stack
  | [], hne, _, _, _, _, _, _ => absurd rfl hne
  | i :: is, _, position, stack, rest, hpos, hdrop, hfits => by
      rw [encodeList, append_assoc] at hdrop
      have hfirst := loop_item hlen i position (.array (is.length + 1) :: stack)
        (encodeList is ++ rest) hpos hdrop (hfits i mem_cons_self)
      rw [encodeList, length_append]
      by_cases hnil : is = []
      · subst hnil
        exact hfirst.array_last
      · refine Consumes.array_cons (by simpa using hnil) hfirst ?_
        exact loop_list hlen is hnil _ stack rest (le_length_of_drop hpos hdrop)
          (drop_of_drop hdrop) fun j hj => hfits j (List.mem_cons_of_mem i hj)
termination_by structural items => items

/-- The loop consumes the entries an open map awaits and completes the map, when
their keys ascend from the previous key on. -/
theorem loop_entries (hlen : bytes.length < 2 ^ 64) : ∀ (entries : List (Item × Item)),
    entries ≠ [] → ∀ (position : ℕ) (stack : List ContainerFrame) (rest : List UInt8)
    (previousKey : Option (ℕ × ℕ)), position ≤ bytes.length →
    bytes.drop position = encodeEntries entries ++ rest →
    (entries.map fun e => e.1.encode).Pairwise (· < ·) →
    (∀ e ∈ entries, KeyFollows bytes e.1.encode previousKey) →
    (∀ e ∈ entries, Fits limits (stack.length + 1) e.1 ∧ Fits limits (stack.length + 1) e.2) →
    Consumes bytes limits position (.map entries.length true none previousKey :: stack)
      (encodeEntries entries).length stack
  | [], hne, _, _, _, _, _, _, _, _, _ => absurd rfl hne
  | e :: es, _, position, stack, rest, previousKey, hpos, hdrop, hkeys, hfollows, hfits => by
      have hfit := hfits e mem_cons_self
      rw [encodeEntries, append_assoc] at hdrop
      have hslice := slice_of_drop hpos hdrop
      have hdrop1 := drop_of_drop hdrop
      have hpos1 := le_length_of_drop hpos hdrop
      rw [append_assoc] at hdrop1
      have hkey := loop_item hlen e.1 position (.map (es.length + 1) true none previousKey :: stack)
        _ hpos hdrop hfit.1
      have hvalue := loop_item hlen e.2 (position + e.1.encode.length)
        (.map (es.length + 1) false none (some (position, position + e.1.encode.length)) :: stack)
        _ hpos1 hdrop1 hfit.2
      have hentry := Consumes.entry hslice (hfollows e mem_cons_self) hkey hvalue
      rw [encodeEntries, length_append, length_append, ← add_assoc]
      by_cases hnil : es = []
      · subst hnil
        exact hentry.map_last
      · obtain ⟨hhead, htail⟩ := List.pairwise_cons.mp hkeys
        refine Consumes.map_cons (by simpa using hnil) hentry ?_
        have hdrop2 := drop_of_drop hdrop1
        have hpos2 := le_length_of_drop hpos1 hdrop1
        rw [add_assoc] at hdrop2 hpos2
        refine loop_entries hlen es hnil _ stack rest _ hpos2 hdrop2 htail ?_
          fun e' he' => hfits e' (List.mem_cons_of_mem e he')
        intro e' he' start stop hbounds
        obtain ⟨rfl, rfl⟩ := Prod.mk.inj (Option.some.inj hbounds)
        exact ⟨_, hslice, hhead _ (List.mem_map_of_mem he')⟩
termination_by structural entries => entries

end

end Completeness

/-! ## Soundness -/

section Soundness

section

variable (bytes : List UInt8) (limits : CborLimits) (fuel : ℕ)

/-- What a successful run of `fuel` turns has done first: consumed the encoding of
an item that fits, and completed it. -/
def ItemSound : Prop :=
  ∀ position stack result, position ≤ bytes.length →
    validateLoop bytes limits fuel position stack = .ok result →
    ∃ i rest fuel', fuel' < fuel ∧ bytes.drop position = Item.encode i ++ rest ∧
      Fits limits stack.length i ∧
      finishItem bytes limits fuel' (position + i.encode.length) (markKeyStart position stack) =
        .ok result

def ListSound : Prop :=
  ∀ remaining position stack result, position ≤ bytes.length →
    validateLoop bytes limits fuel position (.array (remaining + 1) :: stack) = .ok result →
    ∃ items rest fuel', fuel' < fuel ∧ items.length = remaining + 1 ∧
      bytes.drop position = Item.encodeList items ++ rest ∧
      (∀ i ∈ items, Fits limits (stack.length + 1) i) ∧
      finishItem bytes limits fuel' (position + (Item.encodeList items).length) stack =
        .ok result

def EntriesSound : Prop :=
  ∀ remaining position stack previousKey result, position ≤ bytes.length →
    validateLoop bytes limits fuel position (.map (remaining + 1) true none previousKey :: stack) =
      .ok result →
    ∃ entries rest fuel', fuel' < fuel ∧ entries.length = remaining + 1 ∧
      bytes.drop position = Item.encodeEntries entries ++ rest ∧
      (entries.map fun e => e.1.encode).Pairwise (· < ·) ∧
      (∀ e ∈ entries, KeyFollows bytes e.1.encode previousKey) ∧
      (∀ e ∈ entries, Fits limits (stack.length + 1) e.1 ∧ Fits limits (stack.length + 1) e.2) ∧
      finishItem bytes limits fuel' (position + (Item.encodeEntries entries).length) stack =
        .ok result

end

instance transUInt8 : Trans (α := UInt8) (· < ·) (· < ·) (· < ·) :=
  ⟨fun h h' => UInt8.lt_trans h h'⟩

lemma KeyFollows.trans {key key' : List UInt8} {previousKey : Option (ℕ × ℕ)}
    (h : KeyFollows bytes key previousKey) (hlt : key < key') :
    KeyFollows bytes key' previousKey := by
  intro start stop hbounds
  obtain ⟨previous, hslice, hprevious⟩ := h start stop hbounds
  exact ⟨previous, hslice, List.lt_trans hprevious hlt⟩

lemma listSound_of_itemSound {fuel : ℕ} (hitem : ItemSound bytes limits fuel)
    (ih : ∀ fuel' < fuel, ListSound bytes limits fuel') : ListSound bytes limits fuel := by
  intro remaining position stack result hpos h
  obtain ⟨i, rest, fuel', hfuel, hdrop, hfits, hfinish⟩ := hitem _ _ _ hpos h
  have hpos' := le_length_of_drop hpos hdrop
  change finishItem bytes limits fuel' _ (.array (remaining + 1) :: stack) = _ at hfinish
  rw [finishItem_array] at hfinish
  split_ifs at hfinish with hzero
  · subst hzero
    refine ⟨[i], rest, fuel', hfuel, rfl, ?_, by simpa using hfits, ?_⟩
    · rw [hdrop, encodeList, encodeList, append_nil]
    · rw [encodeList, encodeList, append_nil]
      exact hfinish
  · obtain ⟨r, rfl⟩ := Nat.exists_eq_succ_of_ne_zero hzero
    obtain ⟨is, rest', fuel'', hfuel', hlength, hdrop', hfits', hfinish'⟩ :=
      ih fuel' hfuel r _ _ _ hpos' hfinish
    rw [drop_of_drop hdrop] at hdrop'
    refine ⟨i :: is, rest', fuel'', hfuel'.trans hfuel, by simp [hlength], ?_, ?_, ?_⟩
    · rw [hdrop, hdrop', encodeList, append_assoc]
    · intro j hj
      rcases List.mem_cons.mp hj with rfl | hj
      · exact hfits
      · exact hfits' j hj
    · rw [encodeList, length_append, ← add_assoc]
      exact hfinish'

lemma entriesSound_of_itemSound {fuel : ℕ}
    (hitem : ∀ fuel' ≤ fuel, ItemSound bytes limits fuel')
    (ih : ∀ fuel' < fuel, EntriesSound bytes limits fuel') : EntriesSound bytes limits fuel := by
  intro remaining position stack previousKey result hpos h
  obtain ⟨k, rest, fuel1, hfuel1, hdrop, hfits, hfinish⟩ := hitem fuel le_rfl _ _ _ hpos h
  have hslice := slice_of_drop hpos hdrop
  have hpos1 := le_length_of_drop hpos hdrop
  change finishItem bytes limits fuel1 _
    (.map (remaining + 1) true (some position) previousKey :: stack) = _ at hfinish
  obtain ⟨hfollows, hvalue⟩ := (finishItem_key hslice).mp hfinish
  obtain ⟨v, rest1, fuel2, hfuel2, hdrop1, hfits1, hfinish1⟩ :=
    hitem fuel1 hfuel1.le _ _ _ hpos1 hvalue
  have hpos2 := le_length_of_drop hpos1 hdrop1
  have hentry : bytes.drop position = k.encode ++ (v.encode ++ rest1) := by
    rw [hdrop, ← hdrop1, drop_of_drop hdrop]
  have hdrop2 := drop_of_drop hdrop1
  change finishItem bytes limits fuel2 _ (.map (remaining + 1) false none
    (some (position, position + k.encode.length)) :: stack) = _ at hfinish1
  rw [finishItem_value] at hfinish1
  split_ifs at hfinish1 with hzero
  · subst hzero
    refine ⟨[(k, v)], rest1, fuel2, hfuel2.trans hfuel1, rfl, ?_, by simp, ?_, ?_, ?_⟩
    · rw [hentry, encodeEntries, encodeEntries, append_nil, append_assoc]
    · simpa using hfollows
    · simpa using And.intro hfits hfits1
    · rw [encodeEntries, encodeEntries, append_nil, length_append, ← add_assoc]
      exact hfinish1
  · obtain ⟨r, rfl⟩ := Nat.exists_eq_succ_of_ne_zero hzero
    obtain ⟨es, rest2, fuel3, hfuel3, hlength, hdrop3, hkeys, hfollows3, hfits3, hfinish3⟩ :=
      ih fuel2 (hfuel2.trans hfuel1) r _ _ _ _ hpos2 hfinish1
    have hlt (e : Item × Item) (he : e ∈ es) : k.encode < e.1.encode := by
      obtain ⟨previous, hprevious, hlt⟩ := hfollows3 e he _ _ rfl
      rw [hslice] at hprevious
      exact Option.some.inj hprevious ▸ hlt
    refine ⟨(k, v) :: es, rest2, fuel3, (hfuel3.trans hfuel2).trans hfuel1, by simp [hlength],
      ?_, ?_, ?_, ?_, ?_⟩
    · rw [hentry, ← hdrop2, hdrop3, encodeEntries, append_assoc, append_assoc]
    · refine List.pairwise_cons.mpr ⟨?_, hkeys⟩
      intro key hkey
      obtain ⟨e, he, rfl⟩ := List.mem_map.mp hkey
      exact hlt e he
    · intro e he
      rcases List.mem_cons.mp he with rfl | he
      · exact hfollows
      · exact hfollows.trans (hlt e he)
    · intro e he
      rcases List.mem_cons.mp he with rfl | he
      · exact ⟨hfits, hfits1⟩
      · exact hfits3 e he
    · rw [encodeEntries, length_append, length_append, ← add_assoc, ← add_assoc]
      exact hfinish3

lemma itemSound_succ (hlen : bytes.length < 2 ^ 64) {fuel : ℕ}
    (hlist : ListSound bytes limits fuel) (hentries : EntriesSound bytes limits fuel) :
    ItemSound bytes limits (fuel + 1) := by
  intro position stack result hpos h
  cases hhead : validateHead bytes limits stack.length position with
  | error e =>
    rw [validateLoop] at h
    simp [length_markKeyStart, hhead, bind, Except.bind] at h
  | ok head =>
    obtain ⟨container, stop⟩ := head
    obtain ⟨len, hspec, rfl⟩ := (validateHead_iff hlen).mp hhead
    generalize hinput : bytes.drop position = input at hspec
    cases hspec with
    | scalar i hi rest =>
      rw [validateLoop_whole hhead (by simp)] at h
      exact ⟨i, rest, fuel, Nat.lt_succ_self _, rfl, .scalar hi, h⟩
    | array count hcount hdepth hmax rest =>
      have hdrop := drop_of_drop hinput
      have hpos' := le_length_of_drop hpos hinput
      rw [length_header] at hdrop hpos'
      cases count with
      | zero =>
        rw [validateLoop_whole hhead (by rintro frame ⟨⟩; rfl)] at h
        refine ⟨.array [], rest, fuel, Nat.lt_succ_self _, ?_, ?_, ?_⟩
        · rw [encode, encodeList, append_nil]
          rfl
        · exact fits_array.mpr ⟨hdepth, Nat.zero_le _, by simp⟩
        · rw [encode, encodeList, append_nil, length_header]
          exact h
      | succ count =>
        rw [validateLoop_open hhead (by simp [ContainerFrame.remaining])] at h
        obtain ⟨items, rest', fuel', hfuel, hlength, hdrop', hfits, hfinish⟩ :=
          hlist count _ _ _ hpos' h
        rw [length_markKeyStart] at hfits
        refine ⟨.array items, rest', fuel', by omega, ?_, ?_, ?_⟩
        · rw [encode, hlength, append_assoc, ← hdrop', hdrop]
        · exact fits_array.mpr ⟨hdepth, hlength ▸ hmax, hfits⟩
        · rw [encode, hlength, length_append, length_header, ← add_assoc]
          exact hfinish
    | map count hcount hdepth hmax rest =>
      have hdrop := drop_of_drop hinput
      have hpos' := le_length_of_drop hpos hinput
      rw [length_header] at hdrop hpos'
      cases count with
      | zero =>
        rw [validateLoop_whole hhead (by rintro frame ⟨⟩; rfl)] at h
        refine ⟨.map [], rest, fuel, Nat.lt_succ_self _, ?_, ?_, ?_⟩
        · rw [encode, encodeEntries, append_nil]
          rfl
        · exact fits_map.mpr ⟨hdepth, Nat.zero_le _, by simp, by simp⟩
        · rw [encode, encodeEntries, append_nil, length_header]
          exact h
      | succ count =>
        rw [validateLoop_open hhead (by simp [ContainerFrame.remaining])] at h
        obtain ⟨entries, rest', fuel', hfuel, hlength, hdrop', hkeys, -, hfits, hfinish⟩ :=
          hentries count _ _ _ _ hpos' h
        rw [length_markKeyStart] at hfits
        refine ⟨.map entries, rest', fuel', by omega, ?_, ?_, ?_⟩
        · rw [encode, hlength, append_assoc, ← hdrop', hdrop]
        · exact fits_map.mpr ⟨hdepth, hlength ▸ hmax, hkeys, hfits⟩
        · rw [encode, hlength, length_append, length_header, ← add_assoc]
          exact hfinish

lemma loop_sound (hlen : bytes.length < 2 ^ 64) (fuel : ℕ) :
    ItemSound bytes limits fuel ∧ ListSound bytes limits fuel ∧
      EntriesSound bytes limits fuel := by
  induction fuel using Nat.strong_induction_on with
  | _ fuel ih =>
    have hitem : ItemSound bytes limits fuel := by
      cases fuel with
      | zero =>
        intro position stack result _ h
        cases h
      | succ fuel =>
        obtain ⟨-, hlist, hentries⟩ := ih fuel (Nat.lt_succ_self fuel)
        exact itemSound_succ hlen hlist hentries
    refine ⟨hitem, ?_, ?_⟩
    · exact listSound_of_itemSound hitem fun fuel' h => (ih fuel' h).2.1
    · refine entriesSound_of_itemSound (fun fuel' h => ?_) fun fuel' h => (ih fuel' h).2.2
      rcases h.lt_or_eq with hlt | rfl
      · exact (ih fuel' hlt).1
      · exact hitem

end Soundness

/-! ## The validator -/

structure Deterministic (bytes : List UInt8) (limits : CborLimits) (i : Item) : Prop where
  encode_eq : bytes = i.encode
  length_le : bytes.length ≤ limits.maxBodyLen.toNat
  depth_le : i.depth ≤ limits.maxDepth.toNat
  count_le : i.maxCount ≤ limits.maxCollectionItems.toNat
  ascend : i.KeysAscend

lemma validateCanonical_of_deterministic {bytes : List UInt8} {limits : CborLimits} {i : Item}
    (hdepth : limits.maxDepth ≠ 0) (hitems : limits.maxCollectionItems ≠ 0)
    (hbody : limits.maxBodyLen ≠ 0) (h : Deterministic bytes limits i) :
    validateCanonical bytes limits = .ok () := by
  obtain ⟨rfl, hlength, hd, hc, ha⟩ := h
  have hbound := limits.maxBodyLen.toNat_lt
  have hpos := Item.length_encode_pos i
  have hfits : Fits limits ([] : List ContainerFrame).length i :=
    ⟨by simpa using Or.inr hd, hc, ha⟩
  obtain ⟨n, hn, hloop⟩ := loop_item (by omega : i.encode.length < 2 ^ 64) i 0 [] []
    (Nat.zero_le _) (by simp) hfits
  obtain ⟨fuel, hfuel⟩ : ∃ fuel, i.encode.length + 1 = fuel + n := ⟨_, (by omega :
    i.encode.length + 1 = (i.encode.length + 1 - n) + n)⟩
  have hitem : validateItem i.encode limits = .ok i.encode.length := by
    rw [validateItem, hfuel, hloop, zero_add]
    rfl
  have hguard : ¬ (limits.maxDepth = 0 ∨ limits.maxCollectionItems = 0 ∨ limits.maxBodyLen = 0 ∨
      i.encode.isEmpty ∨ i.encode.length > limits.maxBodyLen.toNat) := by
    have hne : i.encode ≠ [] := List.length_pos_iff.mp hpos
    simp only [hdepth, hitems, hbody, List.isEmpty_iff, hne, false_or]
    omega
  rw [validateCanonical, if_neg hguard]
  simp only [pure, Except.pure, ok_bind, hitem, ne_eq, not_true_eq_false, if_false]

lemma deterministic_of_validateCanonical {bytes : List UInt8} {limits : CborLimits}
    (h : validateCanonical bytes limits = .ok ()) : ∃ i, Deterministic bytes limits i := by
  rw [validateCanonical] at h
  split_ifs at h with hguard
  · cases h
  obtain ⟨position, hitem, h1⟩ := bind_eq_ok.mp h
  split_ifs at h1 with hend
  have hbound := limits.maxBodyLen.toNat_lt
  have hlength : bytes.length ≤ limits.maxBodyLen.toNat := by
    simp only [not_or] at hguard
    omega
  obtain ⟨i, rest, fuel', -, hdrop, hfits, hfinish⟩ :=
    (loop_sound (by omega) _).1 _ _ _ (Nat.zero_le _) hitem
  obtain rfl : 0 + i.encode.length = position := Except.ok.inj hfinish
  rw [List.drop_zero] at hdrop
  have hrest : rest = [] := by
    have := congrArg List.length hdrop
    rw [length_append] at this
    exact List.length_eq_zero_iff.mp (by omega)
  rw [hrest, append_nil] at hdrop
  refine ⟨i, hdrop, hlength, ?_, hfits.count_le, hfits.ascend⟩
  have := hfits.depth_le
  simp only [List.length_nil, zero_add] at this
  omega

/-- **The validator accepts exactly deterministic CBOR.**  Under limits with no zero
field, a body passes when and only when it is the shortest-form, definite-length
encoding of one item, with nothing after it, within the body length, the nesting
depth and the collection bound, and with strictly ascending keys in every map. -/
theorem validateCanonical_iff (bytes : List UInt8) (limits : CborLimits)
    (hdepth : limits.maxDepth ≠ 0) (hitems : limits.maxCollectionItems ≠ 0)
    (hbody : limits.maxBodyLen ≠ 0) :
    validateCanonical bytes limits = .ok () ↔
      ∃ i : Item, bytes = i.encode ∧ bytes.length ≤ limits.maxBodyLen.toNat ∧
        i.depth ≤ limits.maxDepth.toNat ∧
        i.maxCount ≤ limits.maxCollectionItems.toNat ∧ i.KeysAscend := by
  constructor
  · intro h
    obtain ⟨i, hi⟩ := deterministic_of_validateCanonical h
    exact ⟨i, hi.encode_eq, hi.length_le, hi.depth_le, hi.count_le, hi.ascend⟩
  · rintro ⟨i, he, hl, hd, hc, ha⟩
    exact validateCanonical_of_deterministic hdepth hitems hbody ⟨he, hl, hd, hc, ha⟩

/-- The validator on a map whose one key is itself a container. -/
theorem validateCanonical_iff_container_key :
    validateCanonical [0xA1, 0x81, 0x18, 0x40, 0xF5] ⟨2, 4, 16⟩ = .ok () := by
  refine (validateCanonical_iff _ _ (by decide) (by decide) (by decide)).mpr
    ⟨.map [(.array [.uint 64], .bool true)], by decide, by decide, by decide, by decide, ?_⟩
  simp [Item.KeysAscend, Item.KeysAscendEntries, Item.KeysAscendList]

end Radiata.Protocol
