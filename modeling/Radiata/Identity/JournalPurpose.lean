import Radiata.Identity.Record
import Radiata.Storage.Pending

/-!
# Journal purposes

The purposes of the identity operations: a fixed text, or a fixed word before the hexadecimal
form of an identifier.  Merge identifiers have sixteen bytes, but a key handle is whatever its
provider chose, as long as it is not empty.

The journal uses a purpose as a key and scans by it.  Purposes of different kinds never begin
with one another, and neither do two merges; a key deletion's purpose begins with another's
exactly when the handles do.  The shorter handle's journal then cannot be discovered while the
longer one's is there.  A handle of more than 58 bytes has no purpose that the journal accepts.
-/

namespace Radiata.Identity

open Lib Storage
open Reconcile (Hash zeroHash)
open Function (update update_of_ne update_self)

structure KeyHandle where
  bytes : List UInt8
  nonempty : bytes ≠ []

instance : DecidableEq KeyHandle := fun a b =>
  decidable_of_iff (a.bytes = b.bytes) (by cases a; cases b; simp)

abbrev GenerationId := FixedBytes 16
abbrev MergeId := FixedBytes 16

/-! ## Texts -/

inductive PurposeKind where
  | localIdentity
  | merge
  | mergeAdoption
  | keyDeletion
deriving DecidableEq

def PurposeKind.word : PurposeKind → Text
  | localIdentity => "local-identity".toList
  | merge => "merge-".toList
  | mergeAdoption => "merge-adoption-".toList
  | keyDeletion => "key-delete-".toList

inductive JournalPurpose where
  | localIdentity
  | merge (generation : GenerationId)
  | mergeAdoption (id : MergeId)
  | keyDeletion (handle : KeyHandle)
deriving DecidableEq

namespace JournalPurpose

def kind : JournalPurpose → PurposeKind
  | localIdentity => .localIdentity
  | merge _ => .merge
  | mergeAdoption _ => .mergeAdoption
  | keyDeletion _ => .keyDeletion

def suffixBytes : JournalPurpose → List UInt8
  | localIdentity => []
  | merge generation => generation.1
  | mergeAdoption id => id.1
  | keyDeletion handle => handle.bytes

def text (p : JournalPurpose) : Text := p.kind.word ++ hexEncode p.suffixBytes

def Fits : JournalPurpose → Prop
  | keyDeletion handle => handle.bytes.length ≤ 58
  | _ => True

def Extends (q p : JournalPurpose) : Prop :=
  ∃ short long, p = keyDeletion short ∧ q = keyDeletion long ∧ short ≠ long ∧
    short.bytes <+: long.bytes

lemma hexEncode_printable (bytes : List UInt8) : (hexEncode bytes).all isPrintable = true := by
  have hdigit : ∀ n < 16, isPrintable (hexDigit n) = true := by decide
  rw [List.all_eq_true]
  intro c hc
  obtain ⟨n, hn, rfl⟩ := hexEncode_digits hc
  exact hdigit n hn

section

variable (p : JournalPurpose)

lemma text_printable : p.text.all isPrintable = true := by
  have hword : ∀ kind : PurposeKind, kind.word.all isPrintable = true := by
    intro kind
    cases kind <;> decide +kernel
  rw [text, List.all_append, hword, hexEncode_printable, Bool.and_true]

lemma length_text : p.text.length = p.kind.word.length + 2 * p.suffixBytes.length := by
  rw [text, List.length_append, length_hexEncode]

lemma validPurpose_text_iff : ValidPurpose p.text ↔ p.Fits := by
  have hvalid : ValidPurpose p.text ↔ 0 < p.kind.word.length + 2 * p.suffixBytes.length ∧
      p.kind.word.length + 2 * p.suffixBytes.length ≤ 128 := by
    rw [ValidPurpose, utf8Len_of_printable p.text_printable, ← List.length_pos_iff_ne_nil,
      length_text]
    exact ⟨fun h => ⟨h.1, h.2.1⟩, fun h => ⟨h.1, h.2, p.text_printable⟩⟩
  rw [hvalid]
  cases p with
  | localIdentity =>
    have hword : PurposeKind.localIdentity.word.length = 14 := by decide +kernel
    exact iff_of_true (by rw [kind, hword]; decide) trivial
  | merge generation =>
    have hword : PurposeKind.merge.word.length = 6 := by decide +kernel
    exact iff_of_true (by rw [kind, hword, suffixBytes, generation.2]; decide) trivial
  | mergeAdoption id =>
    have hword : PurposeKind.mergeAdoption.word.length = 15 := by decide +kernel
    exact iff_of_true (by rw [kind, hword, suffixBytes, id.2]; decide) trivial
  | keyDeletion handle =>
    have hword : PurposeKind.keyDeletion.word.length = 11 := by decide +kernel
    rw [kind, hword, suffixBytes, Fits]
    omega

end

/-! ## Separation -/

lemma getElem?_of_prefix {s t : Text} (h : s <+: t) {i : ℕ} (hi : i < s.length) :
    s[i]? = t[i]? := by
  obtain ⟨rest, rfl⟩ := h
  exact (List.getElem?_append_left hi).symm

lemma kind_of_initial {k l : PurposeKind} (h : k.word[0]? = l.word[0]?) :
    k = l ∨ k = .merge ∧ l = .mergeAdoption ∨ k = .mergeAdoption ∧ l = .merge := by
  revert h
  cases k <;> cases l <;> decide +kernel

variable {p q : JournalPurpose}

lemma getElem?_merge_ne (hp : p.kind = .merge) (hq : q.kind = .mergeAdoption) :
    p.text[8]? ≠ q.text[8]? := by
  have hadoption : q.text[8]? = some 'o' := by
    rw [text, hq, List.getElem?_append_left (by decide +kernel)]
    decide +kernel
  have hmerge : p.text[8]? = (hexEncode p.suffixBytes)[2]? := by
    have hword : PurposeKind.merge.word.length = 6 := by decide +kernel
    rw [text, hp, List.getElem?_append_right (by rw [hword]; decide), hword]
  rw [hadoption, hmerge]
  intro h
  obtain ⟨n, hn, hdigit⟩ := hexEncode_digits (List.mem_of_getElem? h)
  revert n
  decide

lemma length_text_merge (h : p.kind = .merge ∨ p.kind = .mergeAdoption) : 8 < p.text.length := by
  have hsuffix : p.suffixBytes.length = 16 := by
    cases p with
    | merge generation => exact generation.2
    | mergeAdoption id => exact id.2
    | localIdentity | keyDeletion => rcases h with h | h <;> cases h
  rw [length_text, hsuffix]
  omega

lemma kind_eq_of_prefix (h : p.text <+: q.text) : p.kind = q.kind := by
  have hword : ∀ kind : PurposeKind, 0 < kind.word.length := by
    intro kind
    cases kind <;> decide +kernel
  have hinitial : p.kind.word[0]? = q.kind.word[0]? := by
    have hlength : 0 < p.text.length := by
      have := hword p.kind
      rw [length_text]
      omega
    have heq := getElem?_of_prefix h hlength
    rwa [text, text, List.getElem?_append_left (hword _),
      List.getElem?_append_left (hword _)] at heq
  rcases kind_of_initial hinitial with heq | ⟨hp, hq⟩ | ⟨hp, hq⟩
  · exact heq
  · have heq := getElem?_of_prefix h (length_text_merge (.inl hp))
    exact absurd heq (getElem?_merge_ne hp hq)
  · have heq := getElem?_of_prefix h (length_text_merge (.inr hp))
    exact absurd heq.symm (getElem?_merge_ne hq hp)

lemma text_prefix_of_kind (h : p.kind = q.kind) :
    p.text <+: q.text ↔ p.suffixBytes <+: q.suffixBytes := by
  rw [text, text, h, List.prefix_append_right_inj, hexEncode_prefix_iff]

lemma text_prefix_iff : p.text <+: q.text ↔ p = q ∨ q.Extends p := by
  constructor
  · intro h
    have hkind := kind_eq_of_prefix h
    have hbytes := (text_prefix_of_kind hkind).mp h
    cases p with
    | localIdentity =>
      cases q with
      | localIdentity => exact Or.inl rfl
      | merge | mergeAdoption | keyDeletion => cases hkind
    | merge generation =>
      cases q with
      | merge other =>
        have heq : generation.1 = other.1 :=
          hbytes.eq_of_length (generation.2.trans other.2.symm)
        exact Or.inl (congrArg merge (Subtype.ext heq))
      | localIdentity | mergeAdoption | keyDeletion => cases hkind
    | mergeAdoption id =>
      cases q with
      | mergeAdoption other =>
        have heq : id.1 = other.1 := hbytes.eq_of_length (id.2.trans other.2.symm)
        exact Or.inl (congrArg mergeAdoption (Subtype.ext heq))
      | localIdentity | merge | keyDeletion => cases hkind
    | keyDeletion handle =>
      cases q with
      | keyDeletion other =>
        by_cases heq : handle = other
        · exact Or.inl (congrArg keyDeletion heq)
        · exact Or.inr ⟨handle, other, rfl, rfl, heq, hbytes⟩
      | localIdentity | merge | mergeAdoption => cases hkind
  · rintro (rfl | ⟨short, long, rfl, rfl, -, hbytes⟩)
    · exact List.prefix_rfl
    · exact (text_prefix_of_kind (p := keyDeletion short) (q := keyDeletion long) rfl).mpr hbytes

lemma text_injective : Function.Injective text := by
  intro p q h
  have hfront : q.text <+: p.text := h ▸ List.prefix_rfl
  rcases text_prefix_iff.mp (h ▸ List.prefix_rfl : p.text <+: q.text) with
    heq | ⟨short, long, rfl, rfl, hne, hbytes⟩
  · exact heq
  · have hback :=
      (text_prefix_of_kind (p := keyDeletion long) (q := keyDeletion short) rfl).mp hfront
    have heq : short.bytes = long.bytes :=
      hbytes.eq_of_length (hbytes.length_le.antisymm hback.length_le)
    obtain ⟨bytes, hb⟩ := short
    obtain ⟨bytes', hb'⟩ := long
    exact absurd (by cases heq; rfl) hne

end JournalPurpose

/-! ## Coexisting journals -/

/-- The pending records of a store and, for each purpose, the transaction whose journal they hold.
A committed transaction writes one pending record, over none; a cleanup or the transaction that
completes the operation takes the record out. -/
inductive JournalReach (sha256 : Hash) :
    PendingRecords → (JournalPurpose → Option StoreTransaction) → Prop
  | empty : JournalReach sha256 .empty fun _ => none
  | commit {pending : PendingRecords} {live : JournalPurpose → Option StoreTransaction}
      {p : JournalPurpose} {revision : StoreRevision} {id : TransactionId}
      {callerOperations : List StoreOperation} {receiptOperations : Result (List StoreOperation)}
      {transaction : StoreTransaction} {value : StoreValue} :
      JournalReach sha256 pending live →
      prepareJournaledTransaction sha256 revision id p.text callerOperations receiptOperations =
        .ok transaction →
      (∀ operation ∈ transaction.operations, ∀ key,
        operation.identity = .key pendingNamespace key ↔ operation = pendingPut p.text value ∧
          key = pendingKey p.text) →
      pendingPut p.text value ∈ transaction.operations →
      pending.get? (pendingKey p.text) = none →
      JournalReach sha256 (pending.insert (pendingKey p.text) value)
        (Function.update live p (some transaction))
  | remove {pending : PendingRecords} {live : JournalPurpose → Option StoreTransaction}
      (p : JournalPurpose) :
      JournalReach sha256 pending live →
      JournalReach sha256 (pending.erase (pendingKey p.text)) (Function.update live p none)

def SeesOwnJournal (sha256 : Hash) (pending : PendingRecords) (p : JournalPurpose) :
    Option StoreTransaction → Prop
  | none =>
    discoverPending pending p.text = .ok none ∧ recoverPending sha256 pending p.text = .ok none ∧
      cleanupPending sha256 pending p.text = .ok none
  | some transaction =>
    ∃ value record, pendingPut p.text value ∈ transaction.operations ∧
      PendingTransaction.decode value = .ok record ∧ record.purpose = p.text ∧
      discoverPending pending p.text = .ok (some (value, record)) ∧
      recoverPending sha256 pending p.text =
        .ok (some (transaction.id, transaction.operationDigest)) ∧
      cleanupPending sha256 pending p.text =
        .ok (some (.delete pendingNamespace (pendingKey p.text) (digestStoreValue sha256 value)))

def HoldsJournal (sha256 : Hash) (pending : PendingRecords) (p : JournalPurpose) :
    Option StoreTransaction → Prop
  | none => pending.get? (pendingKey p.text) = none
  | some transaction =>
    ∃ revision id planned value, Journaled sha256 revision id p.text planned value transaction ∧
      pending.get? (pendingKey p.text) = some value

section Reach

variable {sha256 : Hash} {pending : PendingRecords}
    {live : JournalPurpose → Option StoreTransaction}
  {p q : JournalPurpose}

lemma pendingKey_text_prefix_iff :
    pendingKey p.text <+: pendingKey q.text ↔ p = q ∨ q.Extends p := by
  rw [pendingKey, pendingKey, bytesOf_prefix_iff p.text_printable q.text_printable,
    JournalPurpose.text_prefix_iff]

lemma pendingKey_text_inj : pendingKey p.text = pendingKey q.text ↔ p = q :=
  ⟨fun h => JournalPurpose.text_injective (bytesOf_injective h), fun h => h ▸ rfl⟩

variable {transaction : Option StoreTransaction}

lemma HoldsJournal.of_get? {other : PendingRecords}
    (h : HoldsJournal sha256 pending p transaction)
    (hget : other.get? (pendingKey p.text) = pending.get? (pendingKey p.text)) :
    HoldsJournal sha256 other p transaction := by
  cases transaction with
  | none => exact hget.trans h
  | some transaction =>
    obtain ⟨revision, id, planned, value, hjournaled, hvalue⟩ := h
    exact ⟨revision, id, planned, value, hjournaled, hget.trans hvalue⟩

namespace JournalReach

lemma holds (h : JournalReach sha256 pending live) (p : JournalPurpose) :
    HoldsJournal sha256 pending p (live p) := by
  induction h with
  | empty => exact OrdMap.get?_empty
  | @commit pending live written revision id caller receipts transaction value _ hprepare _ hput _
      ih =>
    by_cases heq : p = written
    · subst heq
      obtain ⟨expanded, stored, -, hjournaled⟩ := prepareJournaledTransaction_ok hprepare
      -- the put in the transaction is the one of the preparation
      have hvalue : pendingPut p.text value = pendingPut p.text stored :=
        hjournaled.stores_iff.mp ⟨hput, rfl⟩
      obtain rfl : value = stored := by injection hvalue
      rw [update_self]
      exact ⟨revision, id, _, value, hjournaled, OrdMap.get?_insert_self⟩
    · rw [update_of_ne heq]
      exact ih.of_get? (OrdMap.get?_insert_of_ne (mt pendingKey_text_inj.mp heq))
  | @remove pending live removed _ ih =>
    by_cases heq : p = removed
    · subst heq
      rw [update_self]
      exact OrdMap.get?_erase_self
    · rw [update_of_ne heq]
      exact ih.of_get? (OrdMap.get?_erase_of_ne (mt pendingKey_text_inj.mp heq))

variable {entry : StoreKey × StoreValue}

lemma owner (h : JournalReach sha256 pending live) (hentry : entry ∈ pending) :
    ∃ q, entry.1 = pendingKey q.text ∧ (live q).isSome := by
  induction h with
  | empty => exact absurd hentry (OrdMap.not_mem_empty _)
  | @commit pending live written revision id caller receipts transaction value _ _ _ _ _ ih =>
    rcases OrdMap.mem_insert.mp hentry with rfl | ⟨hold, hne⟩
    · exact ⟨written, rfl, by rw [update_self]; rfl⟩
    · obtain ⟨q, hkey, hlive⟩ := ih hold
      have hother : q ≠ written := fun heq => hne (heq ▸ hkey)
      exact ⟨q, hkey, by rwa [update_of_ne hother]⟩
  | @remove pending live removed _ ih =>
    obtain ⟨hold, herased⟩ := OrdMap.mem_filter.mp hentry
    have hne : entry.1 ≠ pendingKey removed.text := by simpa using herased
    obtain ⟨q, hkey, hlive⟩ := ih hold
    have hother : q ≠ removed := fun heq => hne (heq ▸ hkey)
    exact ⟨q, hkey, by rwa [update_of_ne hother]⟩

lemma mem_scan_iff {start : List UInt8} :
    entry ∈ scanEntries pending start ↔ entry ∈ pending ∧ start <+: entry.1 := by
  rw [scanEntries, List.mem_filter, List.isPrefixOf_iff_prefix]
  rfl

lemma mem_scan_of_extends (h : JournalReach sha256 pending live) (hlive : (live q).isSome)
    (hextends : q.Extends p) :
    ∃ value, (pendingKey q.text, value) ∈ scanEntries pending (pendingKey p.text) := by
  have hholds := h.holds q
  obtain ⟨transaction, htransaction⟩ := Option.isSome_iff_exists.mp hlive
  rw [htransaction] at hholds
  obtain ⟨-, -, -, value, -, hvalue⟩ := hholds
  exact ⟨value, mem_scan_iff.mpr
    ⟨OrdMap.get?_eq_some.mp hvalue, pendingKey_text_prefix_iff.mpr (.inr hextends)⟩⟩

lemma mem_scan_own (h : JournalReach sha256 pending live)
    (hfree : ∀ q, (live q).isSome → ¬ q.Extends p) {entry : StoreKey × StoreValue} :
    entry ∈ scanEntries pending (pendingKey p.text) ↔ entry ∈ pending ∧ entry.1 =
      pendingKey p.text := by
  rw [mem_scan_iff]
  refine and_congr_right fun hentry => ⟨fun hstart => ?_, fun heq => heq ▸ List.prefix_rfl⟩
  obtain ⟨q, hkey, hlive⟩ := h.owner hentry
  rw [hkey] at hstart ⊢
  rcases pendingKey_text_prefix_iff.mp hstart with heq | hextends
  · rw [heq]
  · exact absurd hextends (hfree q hlive)

end JournalReach

lemma SeesOwnJournal.of_absent (hvalid : ValidPurpose p.text)
    (hscan : scanEntries pending (pendingKey p.text) = []) :
      SeesOwnJournal sha256 pending p none := by
  have hdiscover : discoverPending pending p.text = .ok none :=
    discoverPending_eq_ok.mpr ⟨hvalid, .inl ⟨hscan, rfl⟩⟩
  refine ⟨hdiscover, ?_, ?_⟩
  · rw [recoverPending, validatePurpose, require, if_pos hvalid, ok_bind, hdiscover]
    rfl
  · rw [cleanupPending, validatePurpose, require, if_pos hvalid, ok_bind, hdiscover]
    rfl

lemma SeesOwnJournal.of_present {revision : StoreRevision} {id : TransactionId}
    {planned : List StoreOperation} {value : StoreValue} {transaction : StoreTransaction}
    (hjournaled : Journaled sha256 revision id p.text planned value transaction)
    (hscan : scanEntries pending (pendingKey p.text) = [(pendingKey p.text, value)]) :
    SeesOwnJournal sha256 pending p (some transaction) := by
  have hvalid := hjournaled.purpose_valid
  have hdiscover : discoverPending pending p.text =
      .ok (some (value, ⟨p.text, id, revision, planned⟩)) :=
    discoverPending_eq_ok.mpr
      ⟨hvalid, .inr ⟨value, _, hscan, hjournaled.decode_value, rfl, rfl⟩⟩
  refine ⟨value, ⟨p.text, id, revision, planned⟩, (hjournaled.stores_iff.mpr rfl).1,
    hjournaled.decode_value, rfl, hdiscover, ?_, ?_⟩
  · rw [recoverPending, validatePurpose, require, if_pos hvalid, ok_bind, hdiscover, ok_bind]
    simp only [hjournaled.recoverIdentity_eq, ok_bind]
    rfl
  · rw [cleanupPending, validatePurpose, require, if_pos hvalid, ok_bind, hdiscover, ok_bind]
    simp only [hjournaled.recoverIdentity_eq, ok_bind]
    rfl

lemma SeesOwnJournal.discovers (h : SeesOwnJournal sha256 pending p transaction) :
    ∃ found, discoverPending pending p.text = .ok found := by
  cases transaction with
  | none => exact ⟨none, h.1⟩
  | some transaction =>
    obtain ⟨value, record, -, -, -, hdiscover, -⟩ := h
    exact ⟨some (value, record), hdiscover⟩

/-- **Journals are apart unless a handle extends another**: with any journals in the store, a
purpose sees exactly its own one if and only if the journal accepts it and no live key deletion
has a handle that continues its own. -/
theorem journal_isolated_iff (h : JournalReach sha256 pending live) :
    SeesOwnJournal sha256 pending p (live p) ↔
      p.Fits ∧ ∀ q, (live q).isSome → ¬ q.Extends p := by
  constructor
  · intro hsees
    obtain ⟨found, hfound⟩ := hsees.discovers
    obtain ⟨hvalid, hscan⟩ := discoverPending_eq_ok.mp hfound
    refine ⟨(JournalPurpose.validPurpose_text_iff p).mp hvalid, fun q hlive hextends => ?_⟩
    obtain ⟨value, hmem⟩ := h.mem_scan_of_extends hlive hextends
    obtain ⟨short, long, rfl, rfl, hne, -⟩ := hextends
    rcases hscan with ⟨hnil, -⟩ | ⟨own, record, hone, -⟩
    · rw [hnil] at hmem
      cases hmem
    · rw [hone, List.mem_singleton] at hmem
      have hpurpose := pendingKey_text_inj.mp (Prod.mk.inj hmem).1
      exact hne (JournalPurpose.keyDeletion.inj hpurpose).symm
  · rintro ⟨hfits, hfree⟩
    have hholds := h.holds p
    have hown : ∀ entry, entry ∈ scanEntries pending (pendingKey p.text) ↔
        entry ∈ pending ∧ entry.1 = pendingKey p.text := fun _ => h.mem_scan_own hfree
    cases hlive : live p with
    | none =>
      rw [hlive] at hholds
      refine .of_absent ((JournalPurpose.validPurpose_text_iff p).mpr hfits) ?_
      refine List.eq_nil_iff_forall_not_mem.mpr fun entry hentry => ?_
      obtain ⟨hmem, hkey⟩ := (hown entry).mp hentry
      have hget : pending.get? (pendingKey p.text) = some entry.2 :=
        OrdMap.get?_eq_some.mpr (hkey ▸ hmem)
      rw [show pending.get? _ = none from hholds] at hget
      cases hget
    | some transaction =>
      rw [hlive] at hholds
      obtain ⟨revision, id, planned, value, hjournaled, hvalue⟩ := hholds
      refine .of_present hjournaled ?_
      have hascending : Ascending (scanEntries pending (pendingKey p.text)) :=
        pending.ascending.filter _
      refine hascending.ext (List.pairwise_singleton _ _) fun entry => ?_
      rw [hown, List.mem_singleton]
      constructor
      · rintro ⟨hmem, hkey⟩
        have hget : pending.get? (pendingKey p.text) = some entry.2 :=
          OrdMap.get?_eq_some.mpr (hkey ▸ hmem)
        exact Prod.ext hkey (Option.some.inj (hget.symm.trans hvalue))
      · rintro rfl
        exact ⟨OrdMap.get?_eq_some.mp hvalue, rfl⟩

end Reach

lemma scanEntries_singleton {start : List UInt8} {key : StoreKey} {value : StoreValue}
    (h : start <+: key) : scanEntries (OrdMap.empty.insert key value) start = [(key, value)] := by
  simp [scanEntries, OrdMap.insert, OrdMap.empty, h]

def sampleHandle : KeyHandle := ⟨[1], sampleRevision.nonempty⟩

def sampleLongerHandle : KeyHandle := ⟨[1, 2], by decide⟩

def sampleDeletionJournal (handle : KeyHandle) : Result StoreTransaction :=
  prepareJournaledTransaction zeroHash sampleRevision sampleTransaction
    (JournalPurpose.keyDeletion handle).text [] (.ok [])

lemma exists_longer_journal : ∃ value transaction,
    JournalReach zeroHash
      (OrdMap.empty.insert (pendingKey (JournalPurpose.keyDeletion sampleLongerHandle).text) value)
      (update (fun _ => none) (.keyDeletion sampleLongerHandle) (some transaction)) := by
  obtain ⟨transaction, htransaction⟩ :
      ∃ transaction, sampleDeletionJournal sampleLongerHandle = .ok transaction :=
    Checked.exists_eq_ok (by decide +kernel)
  obtain ⟨expanded, value, hexpanded, hjournaled⟩ := prepareJournaledTransaction_ok htransaction
  obtain rfl := Except.ok.inj hexpanded
  have hput := (hjournaled.stores_iff.mpr rfl).1
  refine ⟨value, transaction, .commit .empty htransaction (fun operation hoperation key => ?_) hput
    OrdMap.get?_empty⟩
  rw [hjournaled.transaction_eq.2.2] at hoperation
  have hne : internalNamespace ≠ pendingNamespace := by decide +kernel
  simp only [List.nil_append, List.cons_append, List.mem_cons, List.not_mem_nil, or_false]
    at hoperation
  rcases hoperation with rfl | rfl
  · simp [pendingPut, StoreOperation.identity, eq_comm]
  · simp [pendingPut, StoreOperation.identity, hne]

/-- The longer handle's own journal is seen. -/
theorem longer_journal_isolated : ∃ pending live transaction,
    JournalReach zeroHash pending live ∧
      live (.keyDeletion sampleLongerHandle) = some transaction ∧
      SeesOwnJournal zeroHash pending (.keyDeletion sampleLongerHandle) (some transaction) := by
  obtain ⟨value, transaction, hreach⟩ := exists_longer_journal
  have hiff := journal_isolated_iff hreach (p := .keyDeletion sampleLongerHandle)
  rw [Function.update_self] at hiff
  refine ⟨_, _, transaction, hreach, Function.update_self _ _ _, hiff.mpr ⟨?_, ?_⟩⟩
  · show 2 ≤ 58
    decide
  · intro q hlive hextends
    obtain ⟨short, long, hshort, rfl, hne, -⟩ := hextends
    by_cases heq : JournalPurpose.keyDeletion long = .keyDeletion sampleLongerHandle
    · exact hne (JournalPurpose.keyDeletion.inj (hshort.symm.trans heq.symm))
    · rw [Function.update_of_ne heq] at hlive
      cases hlive

def sampleLongHandle : KeyHandle := ⟨List.replicate 59 0, by decide⟩

/-- The shorter handle has no journal, but looking for it fails while the longer one's is there;
and no journal can be prepared for a handle of 59 bytes. -/
theorem longer_journal_blocks_shorter :
    (∃ pending live, JournalReach zeroHash pending live ∧
      live (.keyDeletion sampleHandle) = none ∧
      discoverPending pending (JournalPurpose.keyDeletion sampleHandle).text =
        .error (storageCorrupt "storage snapshot")) ∧
    ∀ sha256 revision id callerOperations receiptOperations,
      prepareJournaledTransaction sha256 revision id
          (JournalPurpose.keyDeletion sampleLongHandle).text callerOperations receiptOperations =
        .error (.invalidInput "pending transaction purpose") := by
  constructor
  · obtain ⟨value, transaction, hreach⟩ := exists_longer_journal
    have hne : JournalPurpose.keyDeletion sampleLongerHandle ≠
        .keyDeletion sampleHandle := by decide
    refine ⟨_, _, hreach, Function.update_of_ne hne.symm _ _, ?_⟩
    have hvalid : ValidPurpose (JournalPurpose.keyDeletion sampleHandle).text :=
      (JournalPurpose.validPurpose_text_iff _).mpr (show 1 ≤ 58 by decide)
    have hextends : JournalPurpose.Extends (.keyDeletion sampleLongerHandle)
        (.keyDeletion sampleHandle) :=
      ⟨sampleHandle, sampleLongerHandle, rfl, rfl, by decide, by decide⟩
    rw [discoverPending, validatePurpose, require, if_pos hvalid, ok_bind,
      scanEntries_singleton (pendingKey_text_prefix_iff.mpr (.inr hextends)), discoverEntries,
      require, if_neg (mt pendingKey_text_inj.mp hne)]
    rfl
  · intro sha256 revision id callerOperations receiptOperations
    have hinvalid : ¬ ValidPurpose (JournalPurpose.keyDeletion sampleLongHandle).text := by
      rw [JournalPurpose.validPurpose_text_iff]
      show ¬ (List.replicate 59 (0 : UInt8)).length ≤ 58
      decide
    rw [prepareJournaledTransaction, validatePurpose, require, if_neg hinvalid]
    rfl

end Radiata.Identity
