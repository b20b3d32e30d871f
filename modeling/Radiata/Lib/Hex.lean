import Radiata.Lib.Cbor.Item
import Radiata.Lib.Text

/-!
# Bytes of texts and texts of bytes

The lowercase hexadecimal form of a byte string, and the bytes of a printable text.  Both keep
the prefix order: a byte string is the beginning of another exactly when its hexadecimal form is,
and a printable text is the beginning of another exactly when its bytes are.  A number of fixed
width, a part after its length and a list after its count end where they say.
-/

namespace Radiata.Lib

/-! ## Hexadecimal -/

def hexDigit (n : ℕ) : Char := "0123456789abcdef".toList.getD n '0'

def hexPair (b : UInt8) : Text := [hexDigit (b.toNat / 16), hexDigit (b.toNat % 16)]

def hexEncode (bytes : List UInt8) : Text := bytes.flatMap hexPair

lemma hexDigit_injective : ∀ m < 16, ∀ n < 16, hexDigit m = hexDigit n → m = n := by decide

lemma hexPair_injective : Function.Injective hexPair := by
  intro a b h
  have ha : a.toNat < 256 := a.toNat_lt
  have hb : b.toNat < 256 := b.toNat_lt
  obtain ⟨hhigh, hlow⟩ : hexDigit (a.toNat / 16) = hexDigit (b.toNat / 16) ∧
      hexDigit (a.toNat % 16) = hexDigit (b.toNat % 16) := by simpa [hexPair] using h
  have hdiv := hexDigit_injective _ (by omega) _ (by omega) hhigh
  have hmod := hexDigit_injective _ (by omega) _ (by omega) hlow
  exact UInt8.toNat_inj.mp (by omega)

lemma hexEncode_cons (b : UInt8) (bytes : List UInt8) :
    hexEncode (b :: bytes) = hexPair b ++ hexEncode bytes := List.flatMap_cons

@[simp] lemma length_hexEncode (bytes : List UInt8) :
    (hexEncode bytes).length = 2 * bytes.length := by
  induction bytes with
  | nil => rfl
  | cons b bytes ih =>
    rw [hexEncode_cons, List.length_append, ih, List.length_cons]
    show 2 + 2 * bytes.length = 2 * (bytes.length + 1)
    omega

lemma hexEncode_digits {bytes : List UInt8} {c : Char} (h : c ∈ hexEncode bytes) :
    ∃ n < 16, c = hexDigit n := by
  obtain ⟨b, -, hc⟩ := List.mem_flatMap.mp h
  have hb : b.toNat < 256 := b.toNat_lt
  rcases List.mem_pair.mp hc with rfl | rfl
  · exact ⟨_, by omega, rfl⟩
  · exact ⟨_, by omega, rfl⟩

lemma hexEncode_prefix_iff {a b : List UInt8} : hexEncode a <+: hexEncode b ↔ a <+: b := by
  induction a generalizing b with
  | nil => simp [hexEncode]
  | cons x a ih =>
    cases b with
    | nil => simp [hexEncode, hexPair]
    | cons y b =>
      rw [hexEncode_cons, hexEncode_cons, List.cons_prefix_cons]
      constructor
      · intro h
        obtain ⟨rest, hrest⟩ := h
        rw [List.append_assoc] at hrest
        obtain ⟨hpair, htail⟩ := List.append_inj hrest rfl
        exact ⟨hexPair_injective hpair, ih.mp ⟨rest, htail⟩⟩
      · rintro ⟨rfl, h⟩
        exact (List.prefix_append_right_inj _).mpr (ih.mpr h)

/-! ## Printable texts -/

def bytesOf (t : Text) : List UInt8 := Cbor.utf8 (String.ofList t)

def isPrintable (c : Char) : Bool := 0x20 ≤ c.toNat && c.toNat ≤ 0x7E

lemma bytesOf_eq (t : Text) : bytesOf t = t.flatMap String.utf8EncodeChar := by
  simp [bytesOf, Cbor.utf8, String.toByteArray_ofList, List.utf8Encode]

lemma bytesOf_injective : Function.Injective bytesOf := by
  intro s t h
  exact String.ofList_injective (Cbor.utf8_injective h)

lemma utf8EncodeChar_of_printable {c : Char} (h : isPrintable c = true) :
    String.utf8EncodeChar c = [UInt8.ofNat c.toNat] := by
  have hle : c.val.toNat ≤ 127 := by
    have := (Bool.and_eq_true_iff.mp h).2
    have hle : c.toNat ≤ 0x7E := of_decide_eq_true this
    exact hle.trans (by decide)
  exact if_pos hle

lemma bytesOf_of_printable {t : Text} (h : t.all isPrintable = true) :
    bytesOf t = t.map fun c => UInt8.ofNat c.toNat := by
  rw [bytesOf_eq]
  induction t with
  | nil => rfl
  | cons c t ih =>
    rw [List.all_cons, Bool.and_eq_true] at h
    rw [List.flatMap_cons, utf8EncodeChar_of_printable h.1, ih h.2]
    rfl

lemma utf8Len_of_printable {t : Text} (h : t.all isPrintable = true) : utf8Len t = t.length := by
  induction t with
  | nil => rfl
  | cons c t ih =>
    rw [List.all_cons, Bool.and_eq_true] at h
    have hsize : c.utf8Size = 1 := by
      rw [← String.length_utf8EncodeChar, utf8EncodeChar_of_printable h.1]
      rfl
    rw [utf8Len_cons, hsize, ih h.2, List.length_cons, Nat.add_comm]

lemma bytesOf_prefix_iff {s t : Text} (hs : s.all isPrintable = true)
    (ht : t.all isPrintable = true) : bytesOf s <+: bytesOf t ↔ s <+: t := by
  rw [bytesOf_of_printable hs, bytesOf_of_printable ht]
  refine ⟨fun h => ?_, fun h => h.map _⟩
  induction s generalizing t with
  | nil => exact List.nil_prefix
  | cons c s ih =>
    cases t with
    | nil => exact absurd (List.IsPrefix.length_le h) (by simp)
    | cons d t =>
      rw [List.map_cons, List.map_cons, List.cons_prefix_cons] at h
      rw [List.all_cons, Bool.and_eq_true] at hs ht
      obtain ⟨hbyte, htail⟩ := h
      have hc : c.toNat ≤ 0x7E := of_decide_eq_true (Bool.and_eq_true_iff.mp hs.1).2
      have hd : d.toNat ≤ 0x7E := of_decide_eq_true (Bool.and_eq_true_iff.mp ht.1).2
      have hnat : c.toNat = d.toNat := by
        have := congrArg UInt8.toNat hbyte
        simp only [UInt8.toNat_ofNat'] at this
        omega
      exact List.cons_prefix_cons.mpr ⟨Char.toNat_inj.mp hnat, ih hs.2 ht.2 htail⟩

/-! ## Parts that say where they end -/

section Delimited

variable {α : Type*} {x y : List UInt8} {width : ℕ}

lemma beBytes_append_inj {m n : ℕ} (hm : m < 256 ^ width) (hn : n < 256 ^ width)
    (h : Cbor.beBytes width m ++ x = Cbor.beBytes width n ++ y) : m = n ∧ x = y := by
  obtain ⟨hbytes, hrest⟩ := List.append_inj h (by simp)
  have hvalue := congrArg Cbor.beValue hbytes
  rw [Cbor.beValue_beBytes hm, Cbor.beValue_beBytes hn] at hvalue
  exact ⟨hvalue, hrest⟩

lemma sized_append_inj {a b : List UInt8} (ha : a.length < 256 ^ width)
    (hb : b.length < 256 ^ width)
    (h : Cbor.beBytes width a.length ++ a ++ x = Cbor.beBytes width b.length ++ b ++ y) :
    a = b ∧ x = y := by
  rw [List.append_assoc, List.append_assoc] at h
  obtain ⟨hlength, hrest⟩ := beBytes_append_inj ha hb h
  exact List.append_inj hrest hlength

lemma flatMap_inj {f : α → List UInt8} {P : α → Prop}
    (hf : ∀ a b x y, P a → P b → f a ++ x = f b ++ y → a = b ∧ x = y) {as bs : List α}
    (hlength : as.length = bs.length) (ha : ∀ a ∈ as, P a) (hb : ∀ b ∈ bs, P b)
    (h : as.flatMap f = bs.flatMap f) : as = bs := by
  induction as generalizing bs with
  | nil => exact (List.length_eq_zero_iff.mp hlength.symm).symm
  | cons a as ih =>
    cases bs with
    | nil => cases hlength
    | cons b bs =>
      rw [List.flatMap_cons, List.flatMap_cons] at h
      rw [List.forall_mem_cons] at ha hb
      obtain ⟨rfl, hrest⟩ := hf a b _ _ ha.1 hb.1 h
      rw [ih (Nat.succ.inj hlength) ha.2 hb.2 hrest]

end Delimited

end Radiata.Lib
