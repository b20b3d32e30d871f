import Mathlib

/-!
# CBOR data items and their deterministic encoding

The data model is the one deterministic CBOR restricts itself to: integers, byte
and text strings, booleans, null, arrays and maps.  `Item.encode` writes every
argument in its shortest form and every length definite, so an item has one
encoding.  What a validator bounds about an item is measured here as well: how
deep its containers nest, how large its largest container is, and whether every
map in it lists its keys in ascending order of their encodings.

Arguments are 64-bit words in the format.  Integers carry theirs as `UInt64`;
string lengths and container counts are lengths of Lean lists, and the encoding
is only used below the word bound.
-/

namespace Radiata.Lib.Cbor

/-! ## Big-endian integers -/

def beBytes : ℕ → ℕ → List UInt8
  | 0, _ => []
  | width + 1, n => UInt8.ofNat (n / 256 ^ width) :: beBytes width n

def beValue : List UInt8 → ℕ
  | [] => 0
  | b :: bs => b.toNat * 256 ^ bs.length + beValue bs

@[simp] lemma length_beBytes (width n : ℕ) : (beBytes width n).length = width := by
  induction width with
  | zero => rfl
  | succ width ih => simp [beBytes, ih]

lemma beValue_lt (bs : List UInt8) : beValue bs < 256 ^ bs.length := by
  induction bs with
  | nil => simp [beValue]
  | cons b bs ih =>
    have hb : b.toNat < 256 := b.toNat_lt
    rw [beValue, List.length_cons, pow_succ]
    nlinarith

lemma beValue_beBytes_mod (width n : ℕ) : beValue (beBytes width n) = n % 256 ^ width := by
  induction width with
  | zero => simp [beBytes, beValue, Nat.mod_one]
  | succ width ih =>
    rw [beBytes, beValue, ih, length_beBytes, UInt8.toNat_ofNat']
    change n / 256 ^ width % 256 * 256 ^ width + n % 256 ^ width = n % 256 ^ (width + 1)
    rw [Nat.mod_pow_succ]
    ring

lemma beValue_beBytes {width n : ℕ} (h : n < 256 ^ width) :
    beValue (beBytes width n) = n := by
  rw [beValue_beBytes_mod, Nat.mod_eq_of_lt h]

lemma beValue_injective {as bs : List UInt8} (hlen : as.length = bs.length)
    (h : beValue as = beValue bs) : as = bs := by
  induction as generalizing bs with
  | nil => exact (List.length_eq_zero_iff.mp hlen.symm).symm
  | cons a as ih =>
    cases bs with
    | nil => simp at hlen
    | cons b bs =>
      have hlen' : as.length = bs.length := by simpa using hlen
      have ha := beValue_lt as
      have hb := beValue_lt bs
      rw [beValue, beValue, hlen'] at h
      rw [hlen'] at ha
      have hhead : a.toNat = b.toNat := by
        have h1 := congrArg (· / 256 ^ bs.length) h
        simpa [Nat.mul_add_div (Nat.pow_pos (by decide : 0 < 256)), Nat.div_eq_of_lt ha,
          Nat.div_eq_of_lt hb, mul_comm _ (256 ^ bs.length)] using h1
      have htail : beValue as = beValue bs := by
        rw [hhead] at h
        omega
      rw [UInt8.toNat_inj.mp hhead, ih hlen' htail]

lemma beBytes_beValue (bs : List UInt8) : beBytes bs.length (beValue bs) = bs :=
  beValue_injective (length_beBytes _ _) (beValue_beBytes (beValue_lt bs))

/-! ## Headers -/

variable (arg : ℕ)

def headerLen : ℕ :=
  if arg < 24 then 1
  else if arg < 2 ^ 8 then 2
  else if arg < 2 ^ 16 then 3
  else if arg < 2 ^ 32 then 5
  else 9

def header (major arg : ℕ) : List UInt8 :=
  if arg < 24 then [UInt8.ofNat (32 * major + arg)]
  else if arg < 2 ^ 8 then UInt8.ofNat (32 * major + 24) :: beBytes 1 arg
  else if arg < 2 ^ 16 then UInt8.ofNat (32 * major + 25) :: beBytes 2 arg
  else if arg < 2 ^ 32 then UInt8.ofNat (32 * major + 26) :: beBytes 4 arg
  else UInt8.ofNat (32 * major + 27) :: beBytes 8 arg

@[simp] lemma length_header (major arg : ℕ) : (header major arg).length = headerLen arg := by
  unfold header headerLen
  split_ifs <;> simp

lemma headerLen_pos : 0 < headerLen arg := by
  unfold headerLen
  split_ifs <;> decide

lemma headerLen_le : headerLen arg ≤ 9 := by
  unfold headerLen
  split_ifs <;> decide

lemma headerLen_of_lt {arg : ℕ} (h : arg < 24) : headerLen arg = 1 := if_pos h

/-! ## Items -/

inductive Item where
  | uint (n : UInt64)
  | nint (n : UInt64)
  | bytes (payload : List UInt8)
  | text (s : String)
  | array (items : List Item)
  | map (entries : List (Item × Item))
  | bool (b : Bool)
  | null

def utf8 (s : String) : List UInt8 := s.toByteArray.data.toList

lemma utf8_injective {s t : String} (h : utf8 s = utf8 t) : s = t :=
  String.toByteArray_inj.mp (ByteArray.ext (Array.toList_inj.mp h))

def validUtf8 (payload : List UInt8) : Bool := (ByteArray.mk payload.toArray).validateUTF8

lemma validUtf8_utf8 (s : String) : validUtf8 (utf8 s) = true := by
  rw [validUtf8, ByteArray.validateUTF8_eq_true_iff]
  exact s.isValidUTF8

lemma exists_utf8_eq {payload : List UInt8} (h : validUtf8 payload = true) :
    ∃ s, utf8 s = payload :=
  ⟨String.ofByteArray _ (ByteArray.validateUTF8_eq_true_iff.mp h), rfl⟩

namespace Item

mutual

def encode : Item → List UInt8
  | uint n => header 0 n.toNat
  | nint n => header 1 n.toNat
  | bytes payload => header 2 payload.length ++ payload
  | text s => header 3 (utf8 s).length ++ utf8 s
  | array items => header 4 items.length ++ encodeList items
  | map entries => header 5 entries.length ++ encodeEntries entries
  | bool false => [0xF4]
  | bool true => [0xF5]
  | null => [0xF6]
termination_by structural i => i

def encodeList : List Item → List UInt8
  | [] => []
  | i :: is => encode i ++ encodeList is
termination_by structural is => is

def encodeEntries : List (Item × Item) → List UInt8
  | [] => []
  | e :: es => encode e.1 ++ (encode e.2 ++ encodeEntries es)
termination_by structural es => es

end

mutual

def depth : Item → ℕ
  | array items => depthList items + 1
  | map entries => depthEntries entries + 1
  | uint _ | nint _ | bytes _ | text _ | bool _ | null => 0
termination_by structural i => i

def depthList : List Item → ℕ
  | [] => 0
  | i :: is => max (depth i) (depthList is)
termination_by structural is => is

def depthEntries : List (Item × Item) → ℕ
  | [] => 0
  | e :: es => max (max (depth e.1) (depth e.2)) (depthEntries es)
termination_by structural es => es

end

mutual

def maxCount : Item → ℕ
  | array items => max items.length (maxCountList items)
  | map entries => max entries.length (maxCountEntries entries)
  | uint _ | nint _ | bytes _ | text _ | bool _ | null => 0
termination_by structural i => i

def maxCountList : List Item → ℕ
  | [] => 0
  | i :: is => max (maxCount i) (maxCountList is)
termination_by structural is => is

def maxCountEntries : List (Item × Item) → ℕ
  | [] => 0
  | e :: es => max (max (maxCount e.1) (maxCount e.2)) (maxCountEntries es)
termination_by structural es => es

end

mutual

/-- Every map of the item, at every depth, lists its keys in strictly ascending
bytewise order of their encodings. -/
def KeysAscend : Item → Prop
  | array items => KeysAscendList items
  | map entries =>
    (entries.map fun e => encode e.1).Pairwise (· < ·) ∧ KeysAscendEntries entries
  | uint _ | nint _ | bytes _ | text _ | bool _ | null => True
termination_by structural i => i

def KeysAscendList : List Item → Prop
  | [] => True
  | i :: is => KeysAscend i ∧ KeysAscendList is
termination_by structural is => is

def KeysAscendEntries : List (Item × Item) → Prop
  | [] => True
  | e :: es => (KeysAscend e.1 ∧ KeysAscend e.2) ∧ KeysAscendEntries es
termination_by structural es => es

end

/-! ### Containers through their elements -/

attribute [local simp] encode encodeList encodeEntries depth depthList depthEntries maxCount
  maxCountList maxCountEntries KeysAscend KeysAscendList KeysAscendEntries

variable {is : List Item} {d : ℕ}

lemma depthList_le_iff : depthList is ≤ d ↔ ∀ i ∈ is, depth i ≤ d := by
  induction is with
  | nil => simp [depthList]
  | cons i is ih => simp [depthList, ih]

variable {es : List (Item × Item)}

lemma depthEntries_le_iff : depthEntries es ≤ d ↔ ∀ e ∈ es, depth e.1 ≤ d ∧ depth e.2 ≤ d := by
  induction es with
  | nil => simp [depthEntries]
  | cons e es ih => simp [depthEntries, ih, and_assoc]

variable {c : ℕ}

lemma maxCountList_le_iff : maxCountList is ≤ c ↔ ∀ i ∈ is, maxCount i ≤ c := by
  induction is with
  | nil => simp [maxCountList]
  | cons i is ih => simp [maxCountList, ih]

lemma maxCountEntries_le_iff :
    maxCountEntries es ≤ c ↔ ∀ e ∈ es, maxCount e.1 ≤ c ∧ maxCount e.2 ≤ c := by
  induction es with
  | nil => simp [maxCountEntries]
  | cons e es ih => simp [maxCountEntries, ih, and_assoc]

lemma keysAscendList_iff : KeysAscendList is ↔ ∀ i ∈ is, KeysAscend i := by
  induction is with
  | nil => simp [KeysAscendList]
  | cons i is ih => simp [KeysAscendList, ih]

lemma keysAscendEntries_iff :
    KeysAscendEntries es ↔ ∀ e ∈ es, KeysAscend e.1 ∧ KeysAscend e.2 := by
  induction es with
  | nil => simp [KeysAscendEntries]
  | cons e es ih => simp [KeysAscendEntries, ih]

/-- The item nests at most `d` deep, holds at most `c` elements per container and
lists its map keys in order. -/
structure Within (d c : ℕ) (i : Item) : Prop where
  depth_le : depth i ≤ d
  count_le : maxCount i ≤ c
  ascend : KeysAscend i

lemma Within.uint (n : UInt64) : Within d c (.uint n) :=
  ⟨by simp [depth], by simp [maxCount], trivial⟩

lemma Within.bytes (payload : List UInt8) : Within d c (.bytes payload) :=
  ⟨by simp [depth], by simp [maxCount], trivial⟩

lemma Within.text (s : String) : Within d c (.text s) :=
  ⟨by simp [depth], by simp [maxCount], trivial⟩

lemma Within.array (hlength : is.length ≤ c) (h : ∀ i ∈ is, Within d c i) :
    Within (d + 1) c (.array is) where
  depth_le := by
    rw [depth, Nat.add_le_add_iff_right, depthList_le_iff]
    exact fun i hi => (h i hi).depth_le
  count_le := by
    rw [maxCount, max_le_iff, maxCountList_le_iff]
    exact ⟨hlength, fun i hi => (h i hi).count_le⟩
  ascend := by
    rw [KeysAscend, keysAscendList_iff]
    exact fun i hi => (h i hi).ascend

lemma Within.vec {α : Type} {as : List α} {toItem : α → Item} (hlength : as.length ≤ c)
    (h : ∀ a ∈ as, Within d c (toItem a)) : Within (d + 1) c (.array (as.map toItem)) := by
  refine .array (by rwa [List.length_map]) fun i hi => ?_
  obtain ⟨a, ha, rfl⟩ := List.mem_map.mp hi
  exact h a ha

variable (is : List Item)

lemma length_encodeList : (encodeList is).length = (is.map fun i => i.encode.length).sum := by
  induction is with
  | nil => rfl
  | cons i is ih => rw [encodeList, List.length_append, ih, List.map_cons, List.sum_cons]

lemma length_encode_array : (array is).encode.length =
      headerLen is.length + (is.map fun i => i.encode.length).sum := by
  rw [encode, List.length_append, length_header, length_encodeList]

lemma length_encode_uint (n : UInt64) : (uint n).encode.length = headerLen n.toNat := by
  rw [encode, length_header]

lemma length_encode_bytes (payload : List UInt8) :
    (bytes payload).encode.length = headerLen payload.length + payload.length := by
  rw [encode, List.length_append, length_header]

lemma length_encode_text (s : String) :
    (text s).encode.length = headerLen (utf8 s).length + (utf8 s).length := by
  rw [encode, List.length_append, length_header]

lemma length_encode_pos : ∀ i : Item, 0 < (encode i).length
  | uint _ | nint _ => by simp [encode, headerLen_pos]
  | bytes _ | text _ | array _ | map _ => by
      simp only [encode, List.length_append, length_header]
      exact Nat.add_pos_left (headerLen_pos _) _
  | bool false | bool true | null => by simp [encode]

lemma length_le_length_encodeList : is.length ≤ (encodeList is).length := by
  induction is with
  | nil => simp
  | cons i is ih =>
    have := length_encode_pos i
    simp only [encodeList, List.length_append, List.length_cons]
    omega

end Item

end Radiata.Lib.Cbor
