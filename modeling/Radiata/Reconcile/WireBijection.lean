import Radiata.Reconcile.Wire

/-!
# The wire codec is a bijection on its image

`Message.toItem` is the canonical item of a message and `Message.WellShaped` the
list policy.  `encode_eq_ok_iff` says encoding is exactly "well shaped and short
enough"; the two round trips then rest on the strict decoder's, plus one fact about
the probe: on any body that is an encoded wire shape it reads that shape's own kind
field, so the dispatched decoder never disagrees with it.
-/

namespace Radiata.Reconcile

open Lib.Cbor Protocol
open Item.Within (uint)

/-! ## Shapes and items -/

def rangeWires (ranges : List RangeFingerprint) : List RangeWire :=
  ranges.map fun range => ⟨range.start, range.stop, range.count, range.xor⟩

def boundWires (bounds : List DigestRange) : List BoundWire :=
  bounds.map fun bound => ⟨bound.start, bound.stop⟩

def rowWires (rows : List Row) : List RowWire :=
  rows.map fun row => ⟨row.key, row.content⟩

def RangesShaped (ranges : List RangeFingerprint) : Prop :=
  ranges.length ≤ maxRangesPerMessage ∧ ∀ range ∈ ranges, range.start ≤ range.stop

def BoundsShaped (bounds : List DigestRange) : Prop :=
  bounds.length ≤ maxRangesPerMessage ∧ ∀ bound ∈ bounds, bound.start ≤ bound.stop

def RowsShaped (rows : List Row) : Prop := rows.length ≤ maxRowsPerMessage

def Message.WellShaped : Message → Prop
  | root _ _ _ => True
  | hint _ ranges carried => RangesShaped ranges ∧ RowsShaped carried
  | offer _ ranges => RangesShaped ranges
  | need _ bounds => BoundsShaped bounds
  | rows _ carried => RowsShaped carried
  | done _ _ => True

def Message.toItem : Message → Item
  | root lane count xor => RootWire.codec.toItem ⟨kindRoot, lane.code, count, xor⟩
  | hint lane ranges carried =>
    HintWire.codec.toItem ⟨kindHint, lane.code, rangeWires ranges, rowWires carried⟩
  | offer lane ranges => OfferWire.codec.toItem ⟨kindOffer, lane.code, rangeWires ranges⟩
  | need lane bounds => NeedWire.codec.toItem ⟨kindNeed, lane.code, boundWires bounds⟩
  | rows lane carried => RowsWire.codec.toItem ⟨kindRows, lane.code, rowWires carried⟩
  | done lane roundToken => DoneWire.codec.toItem ⟨kindDone, lane.code, roundToken⟩

lemma shape_check_eq_ok {β : Type} {l : List β} {n : ℕ} {start stop : β → UInt64} {e e' : Error} :
    (if l.length > n then throw e
      else if l.any fun x => decide (start x > stop x) then throw e'
      else pure () : Result Unit) = .ok () ↔ l.length ≤ n ∧ ∀ x ∈ l, start x ≤ stop x := by
  split_ifs with hlen hany
  · exact iff_of_false (by simp) fun h => absurd h.1 (by omega)
  · refine iff_of_false (by simp) fun h => ?_
    obtain ⟨x, hmem, hgt⟩ := List.any_eq_true.mp hany
    exact absurd (h.2 x hmem) (not_le.mpr (of_decide_eq_true hgt))
  · refine iff_of_true rfl ⟨by omega, fun x hmem => not_lt.mp fun hgt => hany ?_⟩
    exact List.any_eq_true.mpr ⟨x, hmem, decide_eq_true hgt⟩

lemma checked_eq_ok {β : Type} {check : Result Unit} {value out : β} :
    (check >>= fun _ => pure value) = .ok out ↔ check = .ok () ∧ out = value := by
  rw [bind_eq_ok]
  constructor
  · rintro ⟨_, hcheck, h⟩
    exact ⟨hcheck, (Except.ok.inj h).symm⟩
  · rintro ⟨hcheck, rfl⟩
    exact ⟨(), hcheck, rfl⟩

variable {ranges : List RangeFingerprint}

lemma checkRanges_eq_ok : checkRanges ranges = .ok () ↔ RangesShaped ranges :=
  shape_check_eq_ok

variable {bounds : List DigestRange}

lemma checkBounds_eq_ok : checkBounds bounds = .ok () ↔ BoundsShaped bounds :=
  shape_check_eq_ok

variable {wire : List RangeWire}

lemma rangesToWire_eq_ok :
    rangesToWire ranges = .ok wire ↔ RangesShaped ranges ∧ wire = rangeWires ranges := by
  rw [rangesToWire, checked_eq_ok, checkRanges_eq_ok, rangeWires]

lemma boundsToWire_eq_ok {wire : List BoundWire} :
    boundsToWire bounds = .ok wire ↔ BoundsShaped bounds ∧ wire = boundWires bounds := by
  rw [boundsToWire, checked_eq_ok, checkBounds_eq_ok, boundWires]

variable {rows : List Row}

lemma rowsToWire_eq_ok {wire : List RowWire} :
    rowsToWire rows = .ok wire ↔ RowsShaped rows ∧ wire = rowWires rows := by
  unfold rowsToWire RowsShaped
  split_ifs with hlen
  · exact iff_of_false (by simp) fun h => absurd h.1 (by omega)
  · exact ⟨fun h => ⟨by omega, (Except.ok.inj h).symm⟩, fun h => congrArg Except.ok h.2.symm⟩

variable {α : Type}

lemma map_eq_iff_of_inverse {β : Type} {f : α → β} {g : β → α} (hgf : Function.LeftInverse g f)
    (hfg : Function.RightInverse g f) {as : List α} {bs : List β} :
    bs = as.map f ↔ bs.map g = as := by
  constructor
  · rintro rfl
    exact hgf.list_map as
  · rintro rfl
    exact (hfg.list_map bs).symm

lemma rowsFromWire_eq_ok {wire : List RowWire} :
    rowsFromWire wire = .ok rows ↔ RowsShaped rows ∧ wire = rowWires rows := by
  rw [rowWires, map_eq_iff_of_inverse (g := fun row => ⟨row.key, row.content⟩)
    (fun _ => rfl) (fun _ => rfl), rowsFromWire, RowsShaped]
  split_ifs with hlen
  · refine iff_of_false (by simp) ?_
    rintro ⟨hle, rfl⟩
    rw [List.length_map] at hle
    omega
  · constructor
    · intro h
      obtain rfl := Except.ok.inj h
      exact ⟨by rw [List.length_map]; omega, rfl⟩
    · rintro ⟨-, rfl⟩
      rfl

lemma rangesFromWire_eq_ok :
    rangesFromWire wire = .ok ranges ↔ RangesShaped ranges ∧ wire = rangeWires ranges := by
  rw [rangeWires, map_eq_iff_of_inverse
    (g := fun range => ⟨range.start, range.stop, range.count, range.xor⟩)
    (fun _ => rfl) (fun _ => rfl), rangesFromWire, checked_eq_ok, checkRanges_eq_ok,
    eq_comm (a := ranges)]
  exact and_congr_left fun h => by rw [h]

lemma boundsFromWire_eq_ok {wire : List BoundWire} :
    boundsFromWire wire = .ok bounds ↔ BoundsShaped bounds ∧ wire = boundWires bounds := by
  rw [boundWires, map_eq_iff_of_inverse (g := fun bound => ⟨bound.start, bound.stop⟩)
    (fun _ => rfl) (fun _ => rfl), boundsFromWire, checked_eq_ok, checkBounds_eq_ok,
    eq_comm (a := bounds)]
  exact and_congr_left fun h => by rw [h]

lemma laneFrom_eq_ok {code : UInt8} {lane : LaneId} :
    laneFrom code = .ok lane ↔ code = lane.code := by
  rw [laneFrom, orInvalid_eq_ok]
  constructor
  · intro h
    exact (LaneId.code_of_fromCode h).symm
  · rintro rfl
    exact LaneId.fromCode_code lane

/-! ## Every well-shaped message fits the structural limits -/

lemma RangeWire.toItem_within (w : RangeWire) : (codec.toItem w).Within 1 1024 := by
  rw [toItem_eq]
  exact .array (by simp) (by simp [uint])

lemma BoundWire.toItem_within (w : BoundWire) : (codec.toItem w).Within 1 1024 := by
  rw [toItem_eq]
  exact .array (by simp) (by simp [uint])

lemma RowWire.toItem_within (w : RowWire) : (codec.toItem w).Within 1 1024 := by
  rw [toItem_eq]
  exact .array (by simp) (by simp [Item.Within.bytes])

lemma rangeWires_within (h : RangesShaped ranges) :
    (RangeWire.codec.vec.toItem (rangeWires ranges)).Within 2 1024 := by
  refine .vec ?_ fun w _ => w.toItem_within
  rw [rangeWires, List.length_map]
  exact h.1.trans (by decide)

lemma boundWires_within (h : BoundsShaped bounds) :
    (BoundWire.codec.vec.toItem (boundWires bounds)).Within 2 1024 := by
  refine .vec ?_ fun w _ => w.toItem_within
  rw [boundWires, List.length_map]
  exact h.1.trans (by decide)

lemma rowWires_within (h : RowsShaped rows) :
    (RowWire.codec.vec.toItem (rowWires rows)).Within 2 1024 := by
  refine .vec ?_ fun w _ => w.toItem_within
  rw [rowWires, List.length_map]
  exact h.trans (by decide)

variable {m : Message}

lemma Message.toItem_within (h : m.WellShaped) : m.toItem.Within 8 1024 := by
  suffices m.toItem.Within 3 1024 from
    ⟨this.depth_le.trans (by decide), this.count_le, this.ascend⟩
  cases m with
  | root lane count xor =>
    rw [toItem, RootWire.toItem_eq]
    exact .array (by simp) (by simp [uint])
  | hint lane ranges carried =>
    rw [toItem, HintWire.toItem_eq]
    exact .array (by simp)
      (by simp [uint, rangeWires_within h.1, rowWires_within h.2])
  | offer lane ranges =>
    rw [toItem, OfferWire.toItem_eq]
    exact .array (by simp) (by simp [uint, rangeWires_within h])
  | need lane bounds =>
    rw [toItem, NeedWire.toItem_eq]
    exact .array (by simp) (by simp [uint, boundWires_within h])
  | rows lane carried =>
    rw [toItem, RowsWire.toItem_eq]
    exact .array (by simp) (by simp [uint, rowWires_within h])
  | done lane roundToken =>
    rw [toItem, DoneWire.toItem_eq]
    exact .array (by simp) (by simp [uint])

/-! ## Encoding -/

variable {codec : Codec α} {bytes : List UInt8}

lemma encodeCanonical_reconcile_iff {value : α} (h : (codec.toItem value).Within 8 1024) :
    encodeCanonical codec value reconcileCborLimits = .ok bytes ↔
      bytes = (codec.toItem value).encode ∧ bytes.length ≤ 65536 := by
  constructor
  · intro henc
    obtain ⟨rfl, hlen, -⟩ := encodeCanonical_eq_ok.mp henc
    exact ⟨rfl, hlen⟩
  · rintro ⟨rfl, hlen⟩
    exact encodeCanonical_of_fits (by decide) (by decide) (by decide) h hlen

lemma encode_eq_ok_iff :
    encode m = .ok bytes ↔ m.WellShaped ∧ bytes = m.toItem.encode ∧ bytes.length ≤ 65536 := by
  have hwithin (h : m.WellShaped) := Message.toItem_within h
  cases m with
  | root lane count xor | done lane roundToken =>
    exact (encodeCanonical_reconcile_iff (hwithin trivial)).trans (and_iff_right trivial).symm
  | hint lane ranges carried =>
    simp only [encode, bind_eq_ok, rangesToWire_eq_ok, rowsToWire_eq_ok]
    constructor
    · rintro ⟨_, ⟨hranges, rfl⟩, _, ⟨hrows, rfl⟩, h⟩
      exact ⟨⟨hranges, hrows⟩, (encodeCanonical_reconcile_iff (hwithin ⟨hranges, hrows⟩)).mp h⟩
    · rintro ⟨hshape, h⟩
      exact ⟨_, ⟨hshape.1, rfl⟩, _, ⟨hshape.2, rfl⟩,
        (encodeCanonical_reconcile_iff (hwithin hshape)).mpr h⟩
  | offer lane ranges =>
    simp only [encode, bind_eq_ok, rangesToWire_eq_ok, and_assoc, exists_and_left, exists_eq_left]
    exact and_congr_right fun hshape => encodeCanonical_reconcile_iff (hwithin hshape)
  | need lane bounds =>
    simp only [encode, bind_eq_ok, boundsToWire_eq_ok, and_assoc, exists_and_left, exists_eq_left]
    exact and_congr_right fun hshape => encodeCanonical_reconcile_iff (hwithin hshape)
  | rows lane carried =>
    simp only [encode, bind_eq_ok, rowsToWire_eq_ok, and_assoc, exists_and_left, exists_eq_left]
    exact and_congr_right fun hshape => encodeCanonical_reconcile_iff (hwithin hshape)

/-! ## Decoding -/

lemma probeKind_array (kind : UInt8) (items : List Item)
    (h : (Item.array (.uint kind.toUInt64 :: items)).encode.length < 2 ^ 64) :
    probeKind (Item.array (.uint kind.toUInt64 :: items)).encode = .ok kind := by
  have hkind : kind.toNat < 256 := kind.toNat_lt
  have hcount := Item.length_le_length_encodeList (.uint kind.toUInt64 :: items)
  rw [Item.encode, List.length_append] at h
  rw [probeKind, Item.encode, Codec.readArray_append (by omega), Item.encodeList]
  simp [List.drop_left' (length_header 4 _), Codec.readU64_append, orInvalid, hkind]

/-- A body the strict decoder of a shape accepts is its array, so the probe reads the
shape's own kind. -/
theorem probeKind_of_decodeStrict {wire : α} {context : String} {kind : UInt8} {items : List Item}
    (hitem : codec.toItem wire = .array (.uint kind.toUInt64 :: items))
    (h : decodeCanonicalStrict codec bytes reconcileCborLimits context = .ok wire) :
    probeKind bytes = .ok kind := by
  obtain ⟨rfl, hlen, -⟩ := encodeCanonical_eq_ok.mp (encodeCanonical_of_decodeStrict h)
  rw [hitem] at hlen ⊢
  exact probeKind_array kind items (hlen.trans_lt (by decide))

lemma decode_of_encode (h : encode m = .ok bytes) : decode bytes = .ok m := by
  obtain ⟨hshape, rfl, hlen⟩ := encode_eq_ok_iff.mp h
  have hwithin := Message.toItem_within hshape
  -- One strict decode per shape; the probe then reads that shape's kind.
  have hstrict {α : Type} (codec : Codec α) {wire : α} (context : String)
      (hitem : codec.toItem wire = m.toItem) :
      decodeCanonicalStrict codec m.toItem.encode reconcileCborLimits context = .ok wire := by
    rw [← hitem] at hlen hwithin ⊢
    exact decodeCanonicalStrict_of_encode context
      ((encodeCanonical_reconcile_iff hwithin).mpr ⟨rfl, hlen⟩)
  cases m with
  | root lane count xor =>
    have hwire := hstrict RootWire.codec "reconcile root canonical" rfl
    have hprobe : probeKind _ = .ok kindRoot :=
      probeKind_of_decodeStrict (RootWire.toItem_eq _) hwire
    rw [decode, hprobe, ok_bind, if_pos rfl,
      hwire, ok_bind, laneFrom_eq_ok.mpr rfl]
    rfl
  | hint lane ranges carried =>
    have hwire := hstrict HintWire.codec "reconcile hint canonical" rfl
    have hprobe : probeKind _ = .ok kindHint :=
      probeKind_of_decodeStrict (HintWire.toItem_eq _) hwire
    rw [decode, hprobe, ok_bind,
      if_neg (by decide), if_pos rfl, hwire, ok_bind, rangesFromWire_eq_ok.mpr ⟨hshape.1, rfl⟩,
      ok_bind, rowsFromWire_eq_ok.mpr ⟨hshape.2, rfl⟩, ok_bind, laneFrom_eq_ok.mpr rfl]
    rfl
  | offer lane ranges =>
    have hwire := hstrict OfferWire.codec "reconcile offer canonical" rfl
    have hprobe : probeKind _ = .ok kindOffer :=
      probeKind_of_decodeStrict (OfferWire.toItem_eq _) hwire
    rw [decode, hprobe, ok_bind,
      if_neg (by decide), if_neg (by decide), if_pos rfl, hwire, ok_bind,
      rangesFromWire_eq_ok.mpr ⟨hshape, rfl⟩, ok_bind, laneFrom_eq_ok.mpr rfl]
    rfl
  | need lane bounds =>
    have hwire := hstrict NeedWire.codec "reconcile need canonical" rfl
    have hprobe : probeKind _ = .ok kindNeed :=
      probeKind_of_decodeStrict (NeedWire.toItem_eq _) hwire
    rw [decode, hprobe, ok_bind,
      if_neg (by decide), if_neg (by decide), if_neg (by decide), if_pos rfl, hwire, ok_bind,
      boundsFromWire_eq_ok.mpr ⟨hshape, rfl⟩, ok_bind, laneFrom_eq_ok.mpr rfl]
    rfl
  | rows lane carried =>
    have hwire := hstrict RowsWire.codec "reconcile rows canonical" rfl
    have hprobe : probeKind _ = .ok kindRows :=
      probeKind_of_decodeStrict (RowsWire.toItem_eq _) hwire
    rw [decode, hprobe, ok_bind,
      if_neg (by decide), if_neg (by decide), if_neg (by decide), if_neg (by decide), if_pos rfl,
      hwire, ok_bind, rowsFromWire_eq_ok.mpr ⟨hshape, rfl⟩, ok_bind, laneFrom_eq_ok.mpr rfl]
    rfl
  | done lane roundToken =>
    have hwire := hstrict DoneWire.codec "reconcile done canonical" rfl
    have hprobe : probeKind _ = .ok kindDone :=
      probeKind_of_decodeStrict (DoneWire.toItem_eq _) hwire
    rw [decode, hprobe, ok_bind,
      if_neg (by decide), if_neg (by decide), if_neg (by decide), if_neg (by decide),
      if_neg (by decide), if_pos rfl, hwire, ok_bind, laneFrom_eq_ok.mpr rfl]
    rfl

/-- What one arm of the dispatch establishes: the body is the dispatched shape's
canonical item and the shape carries the probed kind. -/
theorem kind_of_decodeStrict {kind : α → UInt8} {items : α → List Item} {context : String}
    {probed : UInt8} {next : α → Result Message}
    (hitem : ∀ wire, codec.toItem wire = .array (.uint (kind wire).toUInt64 :: items wire))
    (hprobe : probeKind bytes = .ok probed)
    (h : (decodeCanonicalStrict codec bytes reconcileCborLimits context >>= next) = .ok m) :
    ∃ wire, kind wire = probed ∧ bytes = (codec.toItem wire).encode ∧ bytes.length ≤ 65536 ∧
      next wire = .ok m := by
  obtain ⟨wire, hwire, h⟩ := bind_eq_ok.mp h
  have hkind := (probeKind_of_decodeStrict (hitem wire) hwire).symm.trans hprobe
  obtain ⟨hbytes, hlen, -⟩ := encodeCanonical_eq_ok.mp (encodeCanonical_of_decodeStrict hwire)
  exact ⟨wire, Except.ok.inj hkind, hbytes, hlen, h⟩

lemma code_of_laneFrom {code : UInt8} {message : LaneId → Message}
    (h : (laneFrom code >>= fun lane => pure (message lane)) = .ok m) :
    ∃ lane : LaneId, code = lane.code ∧ message lane = m := by
  obtain ⟨lane, hlane, h⟩ := bind_eq_ok.mp h
  exact ⟨lane, laneFrom_eq_ok.mp hlane, Except.ok.inj h⟩

lemma encode_of_decode (h : decode bytes = .ok m) : encode m = .ok bytes := by
  obtain ⟨probed, hprobe, h⟩ := bind_eq_ok.mp h
  rw [encode_eq_ok_iff]
  split_ifs at h with h1 h2 h3 h4 h5 h6
  · obtain ⟨wire, hkind, hbytes, hlen, h⟩ := kind_of_decodeStrict RootWire.toItem_eq hprobe h
    obtain ⟨lane, hlane, rfl⟩ := code_of_laneFrom h
    refine ⟨trivial, hbytes.trans ?_, hlen⟩
    rw [Message.toItem, ← hlane, ← h1, ← hkind]
  · obtain ⟨wire, hkind, hbytes, hlen, h⟩ := kind_of_decodeStrict HintWire.toItem_eq hprobe h
    obtain ⟨ranges, hranges, h⟩ := bind_eq_ok.mp h
    obtain ⟨carried, hrows, h⟩ := bind_eq_ok.mp h
    obtain ⟨lane, hlane, rfl⟩ := code_of_laneFrom h
    obtain ⟨hranges, hrw⟩ := rangesFromWire_eq_ok.mp hranges
    obtain ⟨hrows, hrow⟩ := rowsFromWire_eq_ok.mp hrows
    refine ⟨⟨hranges, hrows⟩, hbytes.trans ?_, hlen⟩
    rw [Message.toItem, ← hlane, ← h2, ← hkind, ← hrw, ← hrow]
  · obtain ⟨wire, hkind, hbytes, hlen, h⟩ := kind_of_decodeStrict OfferWire.toItem_eq hprobe h
    obtain ⟨ranges, hranges, h⟩ := bind_eq_ok.mp h
    obtain ⟨lane, hlane, rfl⟩ := code_of_laneFrom h
    obtain ⟨hranges, hrw⟩ := rangesFromWire_eq_ok.mp hranges
    refine ⟨hranges, hbytes.trans ?_, hlen⟩
    rw [Message.toItem, ← hlane, ← h3, ← hkind, ← hrw]
  · obtain ⟨wire, hkind, hbytes, hlen, h⟩ := kind_of_decodeStrict NeedWire.toItem_eq hprobe h
    obtain ⟨bounds, hbounds, h⟩ := bind_eq_ok.mp h
    obtain ⟨lane, hlane, rfl⟩ := code_of_laneFrom h
    obtain ⟨hbounds, hbw⟩ := boundsFromWire_eq_ok.mp hbounds
    refine ⟨hbounds, hbytes.trans ?_, hlen⟩
    rw [Message.toItem, ← hlane, ← h4, ← hkind, ← hbw]
  · obtain ⟨wire, hkind, hbytes, hlen, h⟩ := kind_of_decodeStrict RowsWire.toItem_eq hprobe h
    obtain ⟨carried, hrows, h⟩ := bind_eq_ok.mp h
    obtain ⟨lane, hlane, rfl⟩ := code_of_laneFrom h
    obtain ⟨hrows, hrow⟩ := rowsFromWire_eq_ok.mp hrows
    refine ⟨hrows, hbytes.trans ?_, hlen⟩
    rw [Message.toItem, ← hlane, ← h5, ← hkind, ← hrow]
  · obtain ⟨wire, hkind, hbytes, hlen, h⟩ := kind_of_decodeStrict DoneWire.toItem_eq hprobe h
    obtain ⟨lane, hlane, rfl⟩ := code_of_laneFrom h
    refine ⟨trivial, hbytes.trans ?_, hlen⟩
    rw [Message.toItem, ← hlane, ← h6, ← hkind]

/-- The wire codec is a bijection between the well-shaped messages whose canonical
encoding fits a body and the byte strings the decoder accepts. -/
theorem wire_bijection :
    (∀ m, (∃ bytes, encode m = .ok bytes) ↔
      m.WellShaped ∧ m.toItem.encode.length ≤ maxBodyBytes.toNat) ∧
    (∀ m bytes, encode m = .ok bytes → bytes = m.toItem.encode ∧ decode bytes = .ok m) ∧
    (∀ m bytes, decode bytes = .ok m → encode m = .ok bytes) ∧
    (∀ m bytes bytes', decode bytes = .ok m → decode bytes' = .ok m → bytes = bytes') ∧
    (∀ m m' bytes, encode m = .ok bytes → encode m' = .ok bytes → m = m') := by
  refine ⟨fun m => ?_, fun m bytes h => ?_, fun m bytes => encode_of_decode, ?_, ?_⟩
  · constructor
    · rintro ⟨bytes, h⟩
      obtain ⟨hshape, rfl, hlen⟩ := encode_eq_ok_iff.mp h
      exact ⟨hshape, hlen⟩
    · rintro ⟨hshape, hlen⟩
      exact ⟨_, encode_eq_ok_iff.mpr ⟨hshape, rfl, hlen⟩⟩
  · exact ⟨(encode_eq_ok_iff.mp h).2.1, decode_of_encode h⟩
  · intro m bytes bytes' h h'
    exact Except.ok.inj ((encode_of_decode h).symm.trans (encode_of_decode h'))
  · intro m m' bytes h h'
    exact Except.ok.inj ((decode_of_encode h).symm.trans (decode_of_encode h'))

theorem wire_bijection_empty_root :
    encode (.root .descriptors 0 0) = .ok [0x84, 1, 1, 0, 0] ∧
      decode [0x84, 1, 1, 0, 0] = .ok (.root .descriptors 0 0) := by
  have h : encode (.root .descriptors 0 0) = .ok [0x84, 1, 1, 0, 0] :=
    encode_eq_ok_iff.mpr ⟨trivial, by decide, by decide⟩
  exact ⟨h, (wire_bijection.2.1 _ _ h).2⟩

end Radiata.Reconcile
