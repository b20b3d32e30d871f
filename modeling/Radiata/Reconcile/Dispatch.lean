import Radiata.Reconcile.Evidence
import Radiata.SyncCommon

/-!
# Dispatch

What the plane does with a message an engine returned: encode its body, wrap the body
in the reconcile envelope, and send the frame; a message that fails either step is
dropped.  Both steps have the same ceiling, and the row gate of the engine knows only
the first, so a row within the envelope's length of the ceiling is accepted and never
crosses.  Everything else an engine returns crosses.
-/

namespace Radiata.Reconcile

open Lib Lib.Cbor Protocol Engine
open Item (array length_encode_array uint)
open List (map_cons map_nil not_mem_nil sum_cons sum_nil)
open Message (toItem)

def reconcileSchema : String := "radiata.woooo.tech/schemas/v1/reconcile"

def sendMessage (message : Message) : Result (List UInt8) := do
  let body ← encode message
  encodeSyncEnvelope reconcileSchema none body

def Crosses (message : Message) : Prop := ∃ frame, sendMessage message = .ok frame

def maxFramedBody : ℕ := 65491

lemma plainEnvelopeLen_le_iff (bodyLen : ℕ) :
    plainEnvelopeLen reconcileSchema bodyLen ≤ maxBodyBytes.toNat ↔ bodyLen ≤ maxFramedBody := by
  have hschema : (utf8 reconcileSchema).length = 39 := by decide
  have hmax : maxBodyBytes.toNat = 65536 := rfl
  have hheader : headerLen 39 = 2 := rfl
  rw [plainEnvelopeLen, hschema, hheader, hmax, maxFramedBody, headerLen]
  split_ifs <;> omega

variable {m : Message}

lemma crosses_iff : Crosses m ↔ m.WellShaped ∧ m.toItem.encode.length ≤ maxFramedBody := by
  constructor
  · rintro ⟨frame, h⟩
    obtain ⟨body, hbody, hframe⟩ := bind_eq_ok.mp h
    obtain ⟨hshape, rfl, -⟩ := encode_eq_ok_iff.mp hbody
    exact ⟨hshape, (plainEnvelopeLen_le_iff _).mp (encodeSyncEnvelope_plain_iff.mp hframe).2⟩
  · rintro ⟨hshape, hlen⟩
    have hbody : encode m = .ok m.toItem.encode :=
      encode_eq_ok_iff.mpr ⟨hshape, rfl, hlen.trans (by decide)⟩
    have hframe := encodeSyncEnvelope_plain_iff.mpr
      ⟨rfl, (plainEnvelopeLen_le_iff m.toItem.encode.length).mpr hlen⟩
    exact ⟨_, bind_eq_ok.mpr ⟨_, hbody, hframe⟩⟩

/-! ## Body lengths -/

lemma bstrHeaderLen_eq (len : ℕ) : bstrHeaderLen len = headerLen len := rfl

lemma length_uint_le (n : UInt64) : (uint n).encode.length ≤ 9 := by
  rw [Item.length_encode_uint]
  exact headerLen_le _

lemma length_rangeWire_le (w : RangeWire) : (RangeWire.codec.toItem w).encode.length ≤ 37 := by
  have h (n : UInt64) := length_uint_le n
  have h1 := h w.start
  have h2 := h w.stop
  have h3 := h w.count
  have h4 := h w.xor
  rw [RangeWire.toItem_eq, length_encode_array, headerLen_of_lt (by simp)]
  simp only [map_cons, map_nil, sum_cons, sum_nil]
  omega

lemma length_boundWire_le (w : BoundWire) : (BoundWire.codec.toItem w).encode.length ≤ 19 := by
  have h1 := length_uint_le w.start
  have h2 := length_uint_le w.stop
  rw [BoundWire.toItem_eq, length_encode_array, headerLen_of_lt (by simp)]
  simp only [map_cons, map_nil, sum_cons, sum_nil]
  omega

lemma length_rowWire (w : RowWire) :
    (RowWire.codec.toItem w).encode.length =
      1 + bstrHeaderLen w.key.length + w.key.length +
        bstrHeaderLen w.content.length + w.content.length := by
  rw [RowWire.toItem_eq, length_encode_array, headerLen_of_lt (by simp)]
  simp only [map_cons, map_nil, sum_cons, sum_nil, Item.length_encode_bytes,
    bstrHeaderLen_eq]
  omega

lemma length_vec_le {α : Type} (codec : Codec α) {as : List α} {weight : α → ℕ}
    (h : ∀ a ∈ as, (codec.toItem a).encode.length ≤ weight a) :
    (codec.vec.toItem as).encode.length ≤ 9 + (as.map weight).sum := by
  have hheader := headerLen_le (as.map codec.toItem).length
  have hsum : ((as.map codec.toItem).map fun i => i.encode.length).sum ≤ (as.map weight).sum := by
    rw [List.map_map]
    exact List.sum_le_sum h
  show (array (as.map codec.toItem)).encode.length ≤ _
  rw [length_encode_array]
  omega

lemma length_body {kind : UInt8} (hkind : kind.toNat < 24) (lane : LaneId) {items : List Item}
    (hitems : items.length < 22) :
    (array (.uint kind.toUInt64 :: .uint lane.code.toUInt64 :: items)).encode.length =
      3 + (items.map fun i => i.encode.length).sum := by
  have hlane : (uint lane.code.toUInt64).encode.length = 1 := by
    cases lane <;> rfl
  have hone : (uint kind.toUInt64).encode.length = 1 := by
    rw [Item.length_encode_uint, UInt8.toNat_toUInt64, headerLen_of_lt hkind]
  rw [length_encode_array, headerLen_of_lt (by simp only [List.length_cons]; omega), map_cons,
    map_cons, sum_cons, sum_cons, hlane, hone]
  omega

lemma length_rangeWires_le (ranges : List RangeFingerprint) :
    (RangeWire.codec.vec.toItem (rangeWires ranges)).encode.length ≤ 9 + 37 * ranges.length := by
  refine (length_vec_le RangeWire.codec fun w _ => length_rangeWire_le w).trans ?_
  simp [rangeWires, Function.comp_def, mul_comm]

lemma length_boundWires_le (bounds : List DigestRange) :
    (BoundWire.codec.vec.toItem (boundWires bounds)).encode.length ≤ 9 + 19 * bounds.length := by
  refine (length_vec_le BoundWire.codec fun w _ => length_boundWire_le w).trans ?_
  simp [boundWires, Function.comp_def, mul_comm]

lemma length_rowWires_le (rows : List Row) :
    (RowWire.codec.vec.toItem (rowWires rows)).encode.length ≤
      9 + 19 * rows.length + (rows.map Row.cost).sum := by
  have hrow (w : RowWire) : (RowWire.codec.toItem w).encode.length ≤
      19 + (w.key.length + w.content.length) := by
    have hkey := headerLen_le w.key.length
    have hcontent := headerLen_le w.content.length
    rw [length_rowWire, bstrHeaderLen_eq, bstrHeaderLen_eq]
    omega
  have hsum (rows : List Row) : ((rowWires rows).map fun w =>
      19 + (w.key.length + w.content.length)).sum = 19 * rows.length + (rows.map Row.cost).sum := by
    induction rows with
    | nil => rfl
    | cons row rows ih =>
      simp only [rowWires, map_cons, sum_cons, List.length_cons, Row.cost] at ih ⊢
      omega
  refine (length_vec_le RowWire.codec fun w _ => hrow w).trans ?_
  rw [hsum, add_assoc]

def Message.weight : Message → ℕ
  | root _ _ _ | done _ _ => 0
  | hint _ ranges carried =>
    37 * ranges.length + (19 * carried.length + (carried.map Row.cost).sum)
  | offer _ ranges => 37 * ranges.length
  | need _ bounds => 19 * bounds.length
  | rows _ carried => 19 * carried.length + (carried.map Row.cost).sum

lemma length_toItem_le (m : Message) : m.toItem.encode.length ≤ 21 + m.weight := by
  cases m with
  | root lane count xor =>
    have hcount := length_uint_le count
    have hxor := length_uint_le xor
    rw [toItem, RootWire.toItem_eq,
      length_body (by decide : kindRoot.toNat < 24) lane (by simp)]
    simp only [map_cons, map_nil, sum_cons, sum_nil, Message.weight]
    omega
  | hint lane ranges carried =>
    have hranges := length_rangeWires_le ranges
    have hrows := length_rowWires_le carried
    rw [toItem, HintWire.toItem_eq,
      length_body (by decide : kindHint.toNat < 24) lane (by simp)]
    simp only [map_cons, map_nil, sum_cons, sum_nil, Message.weight]
    omega
  | offer lane ranges =>
    have hranges := length_rangeWires_le ranges
    rw [toItem, OfferWire.toItem_eq,
      length_body (by decide : kindOffer.toNat < 24) lane (by simp)]
    simp only [map_cons, map_nil, sum_cons, sum_nil, Message.weight]
    omega
  | need lane bounds =>
    have hbounds := length_boundWires_le bounds
    rw [toItem, NeedWire.toItem_eq,
      length_body (by decide : kindNeed.toNat < 24) lane (by simp)]
    simp only [map_cons, map_nil, sum_cons, sum_nil, Message.weight]
    omega
  | rows lane carried =>
    have hrows := length_rowWires_le carried
    rw [toItem, RowsWire.toItem_eq,
      length_body (by decide : kindRows.toNat < 24) lane (by simp)]
    simp only [map_cons, map_nil, sum_cons, sum_nil, Message.weight]
    omega
  | done lane token =>
    have htoken := length_uint_le token
    rw [toItem, DoneWire.toItem_eq,
      length_body (by decide : kindDone.toNat < 24) lane (by simp)]
    simp only [map_cons, map_nil, sum_cons, sum_nil, Message.weight]
    omega

lemma length_single_row (lane : LaneId) (row : Row) :
    (Message.rows lane [row]).toItem.encode.length =
      singleRowMessageLen row.key.length row.content.length := by
  have hvec : (RowWire.codec.vec.toItem (rowWires [row])).encode.length =
      1 + (RowWire.codec.toItem ⟨row.key, row.content⟩).encode.length := by
    show (array [RowWire.codec.toItem ⟨row.key, row.content⟩]).encode.length = _
    rw [length_encode_array, headerLen_of_lt (by simp)]
    simp
  rw [toItem, RowsWire.toItem_eq,
        length_body (by decide : kindRows.toNat < 24) lane (by simp), map_cons,
    sum_cons, map_nil, sum_nil, hvec, length_rowWire, singleRowMessageLen]
  dsimp only
  omega

/-! ## Messages of an engine -/

def Modest : Message → Prop
  | .root _ _ _ | .done _ _ => True
  | .hint _ ranges rows =>
    RangesShaped ranges ∧ RowsShaped rows ∧ (rows.map Row.cost).sum ≤ eagerDeltaBytes
  | .offer _ ranges => RangesShaped ranges
  | .need _ bounds => BoundsShaped bounds
  | .rows _ carried => Packed carried

lemma Modest.wellShaped (h : Modest m) : m.WellShaped := by
  cases m with
  | root | done => trivial
  | hint lane ranges rows => exact ⟨h.1, h.2.1⟩
  | offer lane ranges | need lane bounds => exact h
  | rows lane carried => exact h.length_le

lemma Modest.weight_le (h : Modest m) (hrow : ∀ row, m.payload ≠ [row]) : m.weight ≤ 60000 := by
  cases m with
  | root | done => exact Nat.zero_le _
  | hint lane ranges rows =>
    have hcount : ranges.length ≤ 32 := h.1.1
    have hrows : rows.length ≤ 64 := h.2.1
    have hbytes : (rows.map Row.cost).sum ≤ 4 * 1024 := h.2.2
    simp only [Message.weight]
    omega
  | offer lane ranges =>
    have hcount : ranges.length ≤ 32 := h.1
    simp only [Message.weight]
    omega
  | need lane bounds =>
    have hcount : bounds.length ≤ 32 := h.1
    simp only [Message.weight]
    omega
  | rows lane carried =>
    have hrows : carried.length ≤ 64 := h.length_le
    have hbytes : (carried.map Row.cost).sum ≤ 48 * 1024 := by
      rcases h.bytes_le with hfew | hbytes
      · match carried, hfew, hrow with
        | [], _, _ => exact Nat.zero_le _
        | [row], _, hrow => exact absurd rfl (hrow row)
      · exact hbytes
    simp only [Message.weight]
    omega

/-- **An engine's message crosses unless it is one oversized row.** -/
theorem Modest.crosses_iff (h : Modest m) : Crosses m ↔ ∀ row, m.payload = [row] →
      singleRowMessageLen row.key.length row.content.length ≤ maxFramedBody := by
  rw [Reconcile.crosses_iff, and_iff_right h.wellShaped]
  by_cases hsingle : ∃ row, m.payload = [row]
  · obtain ⟨row, hrow⟩ := hsingle
    cases m with
    | root | hint | offer | need | done => cases hrow
    | rows lane carried =>
      obtain rfl : carried = [row] := hrow
      rw [length_single_row]
      constructor
      · intro hlen other hother
        obtain rfl : row = other := (List.cons.inj hother).1
        exact hlen
      · intro hall
        exact hall row rfl
  · have hnone : ∀ row, m.payload ≠ [row] := fun row hrow => hsingle ⟨row, hrow⟩
    refine iff_of_true ?_ fun row hrow => absurd hrow (hnone row)
    calc m.toItem.encode.length ≤ 21 + m.weight := length_toItem_le m
      _ ≤ 21 + 60000 := Nat.add_le_add_left (h.weight_le hnone) 21
      _ ≤ maxFramedBody := by decide

/-! ## Along a run -/

def inOrder : Grounds where
  claim t := t.start ≤ t.stop
  asked _ := True
  hint ranges := ∀ range ∈ ranges, range.start ≤ range.stop
  claim_of_hint h := h

variable {e : Engine} {input : Drive}

lemma inOrder_entitles (hheld : inOrder.Holds e) (hinput : input.Decoded) :
    inOrder.Entitles e input := by
  cases input with
  | message m =>
    have hshape := wellShaped_of_decode hinput.choose_spec
    refine ⟨hheld, ?_⟩
    cases m with
    | root lane count xor => exact UInt64.zero_le
    | hint lane ranges rows => exact hshape.1.2
    | offer lane ranges => exact hshape.2
    | need lane bounds => exact fun _ _ => trivial
    | rows | done => trivial
  | rootExchange => exact fun _ _ => UInt64.zero_le
  | localChange | localChangeEager | drain => exact hheld

lemma ordered_of_mem_offersFor {t : Triple} (ht : t.start ≤ t.stop) {range : RangeFingerprint}
    (h : range ∈ e.offersFor t) : range.start ≤ range.stop := by
  unfold offersFor at h
  split at h
  · next hverdict =>
      have hne : t.start ≠ t.stop := by
        unfold verdict at hverdict
        split_ifs at hverdict with _ _ _ hpoint
        exact hpoint
      obtain ⟨child, hchild, rfl⟩ := List.mem_map.mp h
      exact ((split_partitions (lt_of_le_of_ne ht hne)).within child hchild).2.1
  · exact absurd h not_mem_nil

lemma eq_of_mem_needsFor {t : Triple} {bound : DigestRange} (h : bound ∈ e.needsFor t) :
    bound = ⟨t.start, t.stop⟩ := by
  unfold needsFor at h
  split at h
  · exact List.mem_singleton.mp h
  · exact List.mem_singleton.mp h
  · exact absurd h not_mem_nil

lemma modest_of_emitted (h : Emitted inOrder e m) : Modest m := by
  cases h with
  | offer hlength hranges =>
    refine ⟨hlength, fun range hrange => ?_⟩
    obtain ⟨t, ht, hmem⟩ := hranges range hrange
    exact ordered_of_mem_offersFor ht hmem
  | need hlength hbounds =>
    refine ⟨hlength, fun bound hbound => ?_⟩
    obtain ⟨t, ht, hmem⟩ := hbounds bound hbound
    rw [eq_of_mem_needsFor hmem]
    exact ht
  | push _ _ hpacked | answer _ hpacked => exact hpacked
  | receipt => trivial

lemma changedRanges_shaped (h : Tracked e) : RangesShaped e.changedRanges := by
  have hbounds : (e.dirty.getD [(0, maxWord)]).length ≤ maxRangesPerMessage ∧
      ∀ bound ∈ e.dirty.getD [(0, maxWord)], bound.1 ≤ bound.2 := by
    cases hdirty : e.dirty with
    | none =>
      refine ⟨by decide, fun bound hbound => ?_⟩
      rw [List.mem_singleton.mp hbound]
      exact UInt64.zero_le
    | some bounds => exact ⟨h.dirty bounds hdirty, h.ordered bounds hdirty⟩
  refine ⟨?_, fun range hrange => ?_⟩
  · rw [changedRanges, List.length_map]
    exact hbounds.1
  · obtain ⟨bound, hbound, rfl⟩ := List.mem_map.mp hrange
    exact hbounds.2 bound hbound

lemma modest_of_announcement (h : Tracked e) (hm : m ∈ e.announcement input) : Modest m := by
  obtain ⟨hlength, hbytes, -⟩ := eagerRows_spec e.index 0 e.eager (Nat.zero_le _)
  rw [Nat.zero_add] at hbytes
  rcases mem_announcement hm with ⟨-, rfl⟩ | ⟨-, rfl⟩ | ⟨-, rfl⟩
  · trivial
  · exact ⟨changedRanges_shaped h, Nat.zero_le _, Nat.zero_le _⟩
  · exact ⟨changedRanges_shaped h, hlength.trans h.eager, hbytes⟩

structure Presentable (e : Engine) : Prop where
  tracked : Tracked e
  held : inOrder.Holds e
  backlog : ∀ m ∈ e.backlog, Modest m

lemma Presentable.queued (h : Presentable e) (sha256 : Hash) (hinput : input.Decoded) :
    ∀ m ∈ e.queued sha256 input, Modest m := by
  intro m hm
  rcases drive_emits_of sha256 (inOrder_entitles h.held hinput) hm with hann | hemitted
  · exact modest_of_announcement h.tracked hann
  · exact modest_of_emitted hemitted

lemma Presentable.step (h : Presentable e) (sha256 : Hash) {op : Op} (hop : op.Decoded) :
    Presentable (e.step sha256 op) := by
  have hrefills {e' : Engine} (hrefills : Refills e e') :
      inOrder.Holds e' ∧ ∀ m ∈ e'.backlog, Modest m := by
    rw [Grounds.Holds, hrefills.pendingHints, hrefills.backlog]
    exact ⟨h.held, h.backlog⟩
  have htracked := h.tracked.step sha256 op
  cases op with
  | insertRow key content =>
    exact ⟨htracked, (hrefills (e.insertRowInner_refills sha256 key content true)).1,
      (hrefills (e.insertRowInner_refills sha256 key content true)).2⟩
  | insertRowQuiet key content =>
    exact ⟨htracked, (hrefills (e.insertRowInner_refills sha256 key content false)).1,
      (hrefills (e.insertRowInner_refills sha256 key content false)).2⟩
  | removeRow key content =>
    exact ⟨htracked, (hrefills (e.removeRow_refills sha256 key content)).1,
      (hrefills (e.removeRow_refills sha256 key content)).2⟩
  | drive input =>
    refine ⟨htracked, drive_holds sha256 (inOrder_entitles h.held hop), fun m hm => ?_⟩
    rw [Engine.step, (e.drive_backlog sha256 input).1] at hm
    rcases List.mem_append.mp (List.mem_of_mem_drop hm) with hold | hnew
    · exact h.backlog m hold
    · exact h.queued sha256 hop m hnew

lemma run_presentable (sha256 : Hash) (lane : LaneId) {ops : List Op}
    (hops : ∀ op ∈ ops, op.Decoded) : Presentable (run sha256 lane ops) := by
  refine run_invariant ⟨(FloodBounds.new lane).tracked, ?_, ?_⟩
    (fun _ _ h hop => h.step sha256 hop) hops
  · exact fun ranges hmem => absurd hmem not_mem_nil
  · exact fun m hmem => absurd hmem not_mem_nil

def FitsFrame (row : Row) : Prop :=
  singleRowMessageLen row.key.length row.content.length ≤ maxFramedBody

instance : DecidablePred FitsFrame := fun _ => inferInstanceAs (Decidable (_ ≤ _))

/-- **What crosses a session.**  A row the engine's gate accepts crosses as a message of
its own exactly when that message leaves room for the envelope; of the messages a drive
returns exactly those that are one row too long for it are dropped; and if every row
inserted and received fits a frame, no message a drive returns is dropped. -/
theorem dispatch_crosses_iff (sha256 : Hash) (lane : LaneId) :
    (∀ row : Row, rowFitsMessage row.key.length row.content.length = true →
      (Crosses (.rows lane [row]) ↔ FitsFrame row)) ∧
    (∀ ops input out, (∀ op ∈ ops, op.Decoded) → input.Decoded →
      ((run sha256 lane ops).drive sha256 input).1 = .ok out →
      ∀ m ∈ out, Crosses m ↔ ∀ row, m.payload = [row] → FitsFrame row) ∧
    (∀ ops input out, (∀ op ∈ ops, op.Decoded) → input.Decoded →
      (∀ op ∈ ops ++ [.drive input], ∀ row ∈ op.stores, FitsFrame row) →
      ((run sha256 lane ops).drive sha256 input).1 = .ok out → ∀ m ∈ out, Crosses m) := by
  have hreturned {ops : List Op} {input : Drive}
      {out : List Message} (hops : ∀ op ∈ ops, op.Decoded) (hinput : input.Decoded)
      (hout : ((run sha256 lane ops).drive sha256 input).1 = .ok out) :
      ∀ m ∈ out, Crosses m ↔ ∀ row, m.payload = [row] → FitsFrame row := by
    intro m hm
    have hpresentable := run_presentable sha256 lane hops
    rw [((run sha256 lane ops).drive_backlog sha256 input).2 out hout] at hm
    refine Modest.crosses_iff ?_
    rcases List.mem_append.mp (List.mem_of_mem_take hm) with hold | hnew
    · exact hpresentable.backlog m hold
    · exact hpresentable.queued sha256 hinput m hnew
  refine ⟨?_, fun _ _ _ hops hinput hout => hreturned hops hinput hout, ?_⟩
  · intro row _
    rw [(show Modest (.rows lane [row]) from .singleton row).crosses_iff]
    constructor
    · intro h
      exact h row rfl
    · intro h other hother
      obtain rfl : row = other := (List.cons.inj hother).1
      exact h
  · intro ops input out hops hinput hrows hout m hm
    refine (hreturned hops hinput hout m hm).mpr fun row hrow => ?_
    have hcarried : row ∈ m.carried := mem_carried_of_mem_payload (hrow ▸ List.mem_cons_self)
    have hspeaks : Speaks FitsFrame (run sha256 lane ops) := by
      refine run_invariant (.new FitsFrame lane) (fun _ _ h hop => h.step hop) ?_
      exact fun op hop => hrows op (List.mem_append_left _ hop)
    rw [((run sha256 lane ops).drive_backlog sha256 input).2 out hout] at hm
    rcases List.mem_append.mp (List.mem_of_mem_take hm) with hold | hnew
    · exact hspeaks.backlog m hold row hcarried
    · obtain ⟨digest, hmem⟩ := carried_held hnew hcarried
      exact held_step hspeaks.held
        (hrows _ (List.mem_append_right _ List.mem_cons_self)) _ hmem

/-- A short row crosses. -/
theorem dispatch_crosses_iff_short_row : Crosses (.rows .descriptors [⟨[1], [2]⟩]) :=
  ((dispatch_crosses_iff oneRowHash .descriptors).1 ⟨[1], [2]⟩ (by decide)).mpr (by decide)

/-- The largest row the gate accepts has a digest and a body, and its frame is refused:
the engine holds it and no session can carry it. -/
theorem accepted_row_dropped :
    (((Engine.new .descriptors).insertRow oneRowHash [] (List.replicate 65527 0)).1 = .ok ()) ∧
    (∃ body, encode (.rows .descriptors [⟨[], List.replicate 65527 0⟩]) = .ok body) ∧
    sendMessage (.rows .descriptors [⟨[], List.replicate 65527 0⟩]) =
      .error (.invalidInput "CBOR encode") := by
  have hlength : (Message.rows .descriptors [⟨[], List.replicate 65527 0⟩]).toItem.encode.length =
      65536 := by
    rw [length_single_row, List.length_replicate]
    rfl
  have hbody : encode (.rows .descriptors [⟨[], List.replicate 65527 0⟩]) = .ok _ :=
    encode_eq_ok_iff.mpr ⟨(by decide : 1 ≤ maxRowsPerMessage), rfl, hlength.le⟩
  refine ⟨?_, ⟨_, hbody⟩, ?_⟩
  · obtain ⟨digest, hdigest⟩ :
        ∃ digest, itemDigest oneRowHash [] (List.replicate 65527 0) = .ok digest := by
      refine exists_itemDigest oneRowHash ?_
      rw [List.length_replicate]
      decide
    unfold Engine.insertRow insertRowInner
    rw [List.length_replicate, hdigest]
    rfl
  · rw [sendMessage, hbody, ok_bind]
    refine encodeSyncEnvelope_plain_error ?_
    rw [hlength]
    decide

end Radiata.Reconcile
