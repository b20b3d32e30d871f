import Radiata.Protocol.CborStrict
import Radiata.Protocol.Tag
import Radiata.Routing.Route

/-!
# Packet-open frames

An open frame carries the trace, both endpoints, the protocol, the bounded metadata
map and, when it is routed, the hop state.  On the wire identifiers and tags are texts
and the hop state is an optional sixth element.  The decoder parses every text again
and refuses a visited chain or a remaining path that names a node twice, which the
encoder does not check.
-/

namespace Radiata.Packet

open Lib Lib.Cbor Protocol Routing
open CanonicalId (parse_text text)

/-! ## Stream metadata -/

def metadataMaxEntries : ℕ := 256
def metadataMaxBytes : ℕ := 32 * 1024

def entryBytes (entry : QualifiedTag × List UInt8) : ℕ := utf8Len entry.1.value + entry.2.length

structure BoundedMetadata (entries : List (QualifiedTag × List UInt8)) : Prop where
  ordered : entries.Pairwise fun a b => a.1.value < b.1.value
  count : entries.length ≤ metadataMaxEntries
  size : (entries.map entryBytes).sum ≤ metadataMaxBytes

structure StreamMetadata where
  entries : List (QualifiedTag × List UInt8)
  bounded : BoundedMetadata entries
deriving DecidableEq

namespace StreamMetadata

def new : StreamMetadata := ⟨[], .nil, by decide, by decide⟩

def insertEntry (entries : List (QualifiedTag × List UInt8)) (key : QualifiedTag)
    (value : List UInt8) : List (QualifiedTag × List UInt8) :=
  entries.filter (fun e => e.1.value < key.value) ++
    (key, value) :: entries.filter (fun e => key.value < e.1.value)

lemma insertEntry_ordered {entries : List (QualifiedTag × List UInt8)} (key : QualifiedTag)
    (value : List UInt8) (h : entries.Pairwise fun a b => a.1.value < b.1.value) :
    (insertEntry entries key value).Pairwise fun a b => a.1.value < b.1.value := by
  refine List.pairwise_append.mpr ⟨h.filter _, List.pairwise_cons.mpr ⟨?_, h.filter _⟩, ?_⟩
  · intro b hb
    exact of_decide_eq_true (List.mem_filter.mp hb).2
  · intro a ha b hb
    have hlow : a.1.value < key.value := of_decide_eq_true (List.mem_filter.mp ha).2
    rcases List.mem_cons.mp hb with rfl | hb
    · exact hlow
    · exact hlow.trans (of_decide_eq_true (List.mem_filter.mp hb).2)

lemma perm_insertEntry {entries : List (QualifiedTag × List UInt8)} {key : QualifiedTag}
    (value : List UInt8) (h : key ∉ entries.map Prod.fst) :
    (insertEntry entries key value).Perm ((key, value) :: entries) := by
  have hsplit : entries.filter (fun e => key.value < e.1.value) =
      entries.filter (fun e => !decide (e.1.value < key.value)) := by
    refine List.filter_congr fun e he => ?_
    have hne : key.value ≠ e.1.value := fun heq =>
      h (List.mem_map.mpr ⟨e, he, (QualifiedTag.ext_value heq).symm⟩)
    rw [Bool.eq_iff_iff]
    simpa using ⟨le_of_lt, fun hle => lt_of_le_of_ne hle hne⟩
  unfold insertEntry
  rw [hsplit]
  exact List.perm_middle.trans ((List.filter_append_perm _ entries).cons _)

def insert (m : StreamMetadata) (key : QualifiedTag) (value : List UInt8) : Result StreamMetadata :=
  if hkey : key ∈ m.entries.map Prod.fst then .error (.conflict "stream metadata")
  else if hbounds : metadataMaxEntries ≤ m.entries.length ∨
      metadataMaxBytes < (m.entries.map entryBytes).sum + entryBytes (key, value) then
    .error (.resourceExhausted "stream metadata")
  else
    .ok ⟨insertEntry m.entries key value, by
      have hperm := perm_insertEntry value hkey
      rw [not_or, not_le, not_lt] at hbounds
      refine ⟨insertEntry_ordered key value m.bounded.ordered, ?_, ?_⟩
      · rw [hperm.length_eq, List.length_cons]
        exact hbounds.1
      · rw [(hperm.map entryBytes).sum_eq, List.map_cons, List.sum_cons, add_comm]
        exact hbounds.2⟩

def insertAll (m : StreamMetadata) : List (Text × List UInt8) → Result StreamMetadata
  | [] => .ok m
  | (key, value) :: rest => do
      let key ← QualifiedTag.parse key
      let m ← m.insert key value
      m.insertAll rest

lemma insert_last {front : List (QualifiedTag × List UInt8)} {e : QualifiedTag × List UInt8}
    (hfront : BoundedMetadata front) (h : BoundedMetadata (front ++ [e])) :
    insert ⟨front, hfront⟩ e.1 e.2 = .ok ⟨front ++ [e], h⟩ := by
  have hlow : ∀ a ∈ front, a.1.value < e.1.value := fun a ha =>
    (List.pairwise_append.mp h.ordered).2.2 a ha e (List.mem_singleton_self e)
  have hkey : e.1 ∉ front.map Prod.fst := by
    intro hmem
    obtain ⟨a, ha, heq⟩ := List.mem_map.mp hmem
    exact absurd (hlow a ha) (by rw [heq]; exact lt_irrefl _)
  have hbounds : ¬(metadataMaxEntries ≤ front.length ∨
      metadataMaxBytes < (front.map entryBytes).sum + entryBytes (e.1, e.2)) := by
    have hcount := h.count
    have hsize := h.size
    rw [List.length_append, List.length_singleton] at hcount
    rw [List.map_append, List.sum_append, List.map_singleton, List.sum_singleton] at hsize
    rw [not_or, not_le, not_lt]
    exact ⟨hcount, hsize⟩
  have hentries : insertEntry front e.1 e.2 = front ++ [e] := by
    unfold insertEntry
    rw [List.filter_eq_self.mpr fun a ha => decide_eq_true (hlow a ha),
      List.filter_eq_nil_iff.mpr fun a ha => by simpa using (hlow a ha).le]
  unfold insert
  rw [dif_neg hkey, dif_neg hbounds]
  simp only [hentries]

lemma BoundedMetadata.front {front back : List (QualifiedTag × List UInt8)}
    (h : BoundedMetadata (front ++ back)) : BoundedMetadata front := by
  have hcount := h.count
  have hsize := h.size
  rw [List.length_append] at hcount
  rw [List.map_append, List.sum_append] at hsize
  exact ⟨(List.pairwise_append.mp h.ordered).1, by omega, by omega⟩

lemma insertAll_append {front back : List (QualifiedTag × List UInt8)}
    (hfront : BoundedMetadata front) (h : BoundedMetadata (front ++ back)) :
    insertAll ⟨front, hfront⟩ (back.map fun e => (e.1.value, e.2)) = .ok ⟨front ++ back, h⟩ := by
  induction back generalizing front with
  | nil => simp [insertAll]
  | cons e back ih =>
    have hsplit : front ++ e :: back = (front ++ [e]) ++ back := by simp
    have hstep : BoundedMetadata (front ++ [e]) := BoundedMetadata.front (hsplit ▸ h)
    rw [List.map_cons, insertAll, QualifiedTag.parse_value, ok_bind, insert_last hfront hstep,
      ok_bind, ih hstep (hsplit ▸ h)]
    simp only [hsplit]

lemma insertAll_entries (m : StreamMetadata) :
    insertAll new (m.entries.map fun e => (e.1.value, e.2)) = .ok m :=
  insertAll_append new.bounded m.bounded

end StreamMetadata

/-! ## Frames -/

structure OpenFrame where
  traceId : TraceId
  source : NodeId
  destination : NodeId
  protocol : ProtocolTag
  metadata : StreamMetadata
  route : Option HopState
deriving DecidableEq

structure RouteWire where
  current : Text
  visited : List Text
  remainingHops : UInt32
  path : List Text

structure OpenWire where
  traceId : Text
  source : Text
  destination : Text
  protocol : Text
  metadata : List (Text × List UInt8)
  route : Option RouteWire

def routeWireCodec : Codec RouteWire :=
  (Codec.array (.cons .chars (.cons Codec.chars.vec (.cons .u32 (.last Codec.chars.vec))))).iso
    (fun (current, visited, remainingHops, path) => ⟨current, visited, remainingHops, path⟩)
    (fun w => (w.current, w.visited, w.remainingHops, w.path)) fun _ => rfl

def openWireCodec : Codec OpenWire :=
  (Codec.array (.cons .chars (.cons .chars (.cons .chars (.cons .chars
    (.cons (Codec.array (.cons .chars (.last .byteVec))).vec
      (.last (routeWireCodec.option fun _ h => by cases h)))))))).iso
    (fun (traceId, source, destination, protocol, metadata, route) =>
      ⟨traceId, source, destination, protocol, metadata, route⟩)
    (fun w => (w.traceId, w.source, w.destination, w.protocol, w.metadata, w.route)) fun _ => rfl

def packetCborLimits : CborLimits := controlCborLimits

def routeToWire (hop : HopState) : RouteWire :=
  ⟨hop.current.text, hop.visited.map CanonicalId.text, hop.remainingHops,
    hop.path.map CanonicalId.text⟩

def openToWire (frame : OpenFrame) : OpenWire :=
  ⟨frame.traceId.text, frame.source.text, frame.destination.text, frame.protocol.tag.value,
    frame.metadata.entries.map fun e => (e.1.value, e.2), frame.route.map routeToWire⟩

def encodeOpen (frame : OpenFrame) : Result (List UInt8) :=
  encodeCanonical openWireCodec (openToWire frame) packetCborLimits

def parseNodes : List Text → Result (List NodeId)
  | [] => .ok []
  | node :: rest => do
      let node ← NodeId.parse node
      let rest ← parseNodes rest
      pure (node :: rest)

def routeFromWire (wire : RouteWire) : Result HopState := do
  let current ← NodeId.parse wire.current
  let visited ← parseNodes wire.visited
  require (pathDuplicateFree visited) (.invalidInput "packet route chain")
  let path ← parseNodes wire.path
  require (pathDuplicateFree path) (.invalidInput "packet route path")
  pure ⟨current, visited, wire.remainingHops, path⟩

def metadataOrdered : List (Text × List UInt8) → Bool
  | a :: b :: rest => decide (a.1 < b.1) && metadataOrdered (b :: rest)
  | _ => true

def openFromWire (wire : OpenWire) : Result OpenFrame := do
  require (metadataOrdered wire.metadata) (.invalidInput "packet metadata order")
  let metadata ← StreamMetadata.new.insertAll wire.metadata
  let destination ← NodeId.parse wire.destination
  let route ← match wire.route with
    | some route => (routeFromWire route).map some
    | none => .ok none
  let traceId ← TraceId.parse wire.traceId
  let source ← NodeId.parse wire.source
  let protocol ← ProtocolTag.parse wire.protocol
  pure ⟨traceId, source, destination, protocol, metadata, route⟩

def decodeOpen (body : List UInt8) (limits : CborLimits) : Result OpenFrame := do
  let wire ← decodeCanonicalStrict openWireCodec body limits "packet open canonical"
  openFromWire wire

/-! ## Reading back -/

lemma parseNodes_text (nodes : List NodeId) :
    parseNodes (nodes.map text) = .ok nodes := by
  induction nodes with
  | nil => rfl
  | cons node rest ih =>
    rw [List.map_cons, parseNodes, NodeId.parse, parse_text, ok_bind, ih]
    rfl

lemma routeFromWire_toWire {hop result : HopState} :
    routeFromWire (routeToWire hop) = .ok result ↔
      hop.visited.Nodup ∧ hop.path.Nodup ∧ hop = result := by
  unfold routeFromWire routeToWire NodeId.parse
  rw [parse_text, ok_bind, parseNodes_text, ok_bind, require_bind_eq_ok,
    pathDuplicateFree_iff, parseNodes_text, ok_bind, require_bind_eq_ok, pathDuplicateFree_iff]
  exact and_congr_right fun _ => and_congr_right fun _ => ⟨Except.ok.inj, fun h => h ▸ rfl⟩

lemma metadataOrdered_of_pairwise {pairs : List (Text × List UInt8)}
    (h : pairs.Pairwise fun a b => a.1 < b.1) : metadataOrdered pairs = true := by
  induction pairs using metadataOrdered.induct with
  | case1 a b rest ih =>
    obtain ⟨hhead, htail⟩ := List.pairwise_cons.mp h
    rw [metadataOrdered, Bool.and_eq_true]
    exact ⟨decide_eq_true (hhead b List.mem_cons_self), ih htail⟩
  | case2 pairs hshort =>
    unfold metadataOrdered
    split
    · exact absurd rfl (hshort _ _ _)
    · rfl

/-- **Which frames the decoder reads back**: those whose chain and path name no node
twice. -/
theorem openFromWire_toWire {frame : OpenFrame} :
    openFromWire (openToWire frame) = .ok frame ↔
      ∀ hop ∈ frame.route, hop.visited.Nodup ∧ hop.path.Nodup := by
  obtain ⟨traceId, source, destination, protocol, metadata, route⟩ := frame
  have hordered : metadataOrdered (metadata.entries.map fun e => (e.1.value, e.2)) = true :=
    metadataOrdered_of_pairwise (List.pairwise_map.mpr metadata.bounded.ordered)
  unfold openFromWire openToWire
  rw [require_bind_eq_ok]
  dsimp only
  rw [StreamMetadata.insertAll_entries, ok_bind, NodeId.parse, parse_text, ok_bind,
    and_iff_right hordered]
  cases route with
  | none =>
    simp only [Option.map_none, ok_bind, TraceId.parse, parse_text, ProtocolTag.parse,
      CategoryTag.parse_value]
    exact ⟨fun _ _ h => absurd h (by simp), fun _ => rfl⟩
  | some hop =>
    simp only [Option.map_some, TraceId.parse, parse_text, ProtocolTag.parse,
      CategoryTag.parse_value, ok_bind]
    rw [bind_eq_ok]
    constructor
    · rintro ⟨route, hroute, -⟩ carried hcarried
      obtain rfl : hop = carried := Option.some.inj hcarried
      obtain ⟨hop', hhop, -⟩ := map_eq_ok.mp hroute
      obtain ⟨hvisited, hpath, -⟩ := routeFromWire_toWire.mp hhop
      exact ⟨hvisited, hpath⟩
    · intro h
      obtain ⟨hvisited, hpath⟩ := h hop rfl
      exact ⟨some hop, map_eq_ok.mpr ⟨hop, routeFromWire_toWire.mpr ⟨hvisited, hpath, rfl⟩, rfl⟩,
        rfl⟩

lemma decodeOpen_encodeOpen {frame : OpenFrame} {bytes : List UInt8}
    (h : encodeOpen frame = .ok bytes) :
    decodeOpen bytes packetCborLimits = .ok frame ↔
      ∀ hop ∈ frame.route, hop.visited.Nodup ∧ hop.path.Nodup := by
  rw [decodeOpen, decodeCanonicalStrict_of_encode _ h, ok_bind]
  exact openFromWire_toWire

end Radiata.Packet
