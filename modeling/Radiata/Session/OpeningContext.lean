import Radiata.Protocol.HandshakeSizes
import Radiata.Session.Inbound
import Radiata.Storage.Scan

/-!
# What an opening context commits to

Identifiers have one length, a protocol has no zero byte while the count after it starts with
one, and a length precedes every key and value.
-/

namespace Radiata.Session

open Lib Packet Protocol Storage

variable {x y : List UInt8}

lemma lengthPrefixed_append_inj {a b : List UInt8} (ha : a.length < 2 ^ 32)
    (hb : b.length < 2 ^ 32) (h : lengthPrefixed a ++ x = lengthPrefixed b ++ y) :
    a = b ∧ x = y := by
  rw [lengthPrefixed, lengthPrefixed, Nat.mod_eq_of_lt ha, Nat.mod_eq_of_lt hb] at h
  exact sized_append_inj ha hb h

lemma nodeId_append_inj {a b : NodeId} (h : textBytes a.text ++ x = textBytes b.text ++ y) :
    a = b ∧ x = y := by
  have hlength (id : NodeId) : (textBytes id.text).length = 26 :=
    (length_utf8_ofList id.text).trans id.valid.1
  obtain ⟨hbytes, hrest⟩ := List.append_inj h ((hlength a).trans (hlength b).symm)
  exact ⟨CanonicalId.text_injective (bytesOf_injective hbytes), hrest⟩

lemma entry_append_inj {a b : QualifiedTag × List UInt8} (ha : entryBytes a < 2 ^ 32)
    (hb : entryBytes b < 2 ^ 32)
    (h : lengthPrefixed (textBytes a.1.value) ++ lengthPrefixed a.2 ++ x =
      lengthPrefixed (textBytes b.1.value) ++ lengthPrefixed b.2 ++ y) : a = b ∧ x = y := by
  rw [entryBytes, ← length_utf8_ofList] at ha hb
  rw [List.append_assoc, List.append_assoc] at h
  obtain ⟨hkey, h⟩ := lengthPrefixed_append_inj (Nat.lt_of_add_right_lt ha)
    (Nat.lt_of_add_right_lt hb) h
  obtain ⟨hvalue, h⟩ := lengthPrefixed_append_inj (Nat.lt_of_add_left_lt ha)
    (Nat.lt_of_add_left_lt hb) h
  exact ⟨Prod.ext (QualifiedTag.ext_value (bytesOf_injective hkey)) hvalue, h⟩

/-- **Two opens have one preimage exactly when they open the same stream**: their endpoints,
protocols and metadata agree. -/
theorem openingContext_eq_iff (a b : OpenFrame) :
    openingContext a = openingContext b ↔ a.source = b.source ∧ a.destination = b.destination ∧
      a.protocol = b.protocol ∧ a.metadata = b.metadata := by
  have hcount (m : StreamMetadata) : m.entries.length < 256 ^ 3 :=
    m.bounded.count.trans_lt (by decide)
  have hhead (m : StreamMetadata) : Cbor.beBytes 4 (m.entries.length % 2 ^ 32) =
      0 :: Cbor.beBytes 3 m.entries.length := by
    rw [Nat.mod_eq_of_lt ((hcount m).trans (by decide)), Cbor.beBytes, Nat.div_eq_of_lt (hcount m)]
    rfl
  have hshort (m : StreamMetadata) (entry) (hentry : entry ∈ m.entries) :
      entryBytes entry < 2 ^ 32 :=
    (List.single_le_sum (by simp) _ (List.mem_map_of_mem hentry)).trans_lt
      (m.bounded.size.trans_lt (by decide))
  constructor
  · intro h
    simp only [openingContext, List.append_assoc, List.singleton_append, hhead] at h
    obtain ⟨hsource, h⟩ := nodeId_append_inj h
    obtain ⟨hdestination, h⟩ := nodeId_append_inj (List.cons.inj h).2
    obtain ⟨hprotocol, h⟩ := append_separator_inj (zero_notMem_bytesOf _) (zero_notMem_bytesOf _)
      (List.cons.inj h).2
    obtain ⟨hlength, h⟩ := beBytes_append_inj (hcount a.metadata) (hcount b.metadata) h
    refine ⟨hsource, hdestination, CategoryTag.value_injective (bytesOf_injective hprotocol), ?_⟩
    have hentries : a.metadata.entries = b.metadata.entries :=
      flatMap_inj (fun _ _ _ _ => entry_append_inj) hlength (hshort _) (hshort _) h
    revert hentries
    rcases a.metadata with ⟨as, has⟩
    rcases b.metadata with ⟨bs, hbs⟩
    rintro rfl
    rfl
  · rintro ⟨hsource, hdestination, hprotocol, hmetadata⟩
    rw [openingContext, hsource, hdestination, hprotocol, hmetadata, ← openingContext]

end Radiata.Session
