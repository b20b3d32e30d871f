import Radiata.Resource.Record
import Radiata.Storage.WriteNotes

/-!
# Resource registers

One named resource is one register: a row under the name's bytes.  A commit installs a
record over an empty or unreadable row, or over a record that it wins over, and leaves
the row otherwise.  A page settles the contest among its own records first and then
installs its winners in one transaction.
-/

namespace Radiata.Resource

open Lib Lib.Cbor Identity Reconcile Storage

abbrev Registers := OrdMap (List UInt8) (List UInt8)

def recordKey (name : ResourceName) : List UInt8 := utf8 (String.ofList name.tag.value)

variable {sha256 : Hash}

def ResourceRecordV1.timestamp (record : ResourceRecordV1 sha256) : ℤ :=
  record.timestampMillis.1 * 1000000

structure ResourceVersion where
  timestamp : ℤ
  writer : NodeId
  removal : Bool
  digest : Digest
deriving DecidableEq

namespace ResourceVersion

def fromRecord (record : ResourceRecordV1 sha256) : ResourceVersion :=
  ⟨record.timestamp, record.writer, record.removed, record.digest⟩

def matchesRecord (version : ResourceVersion) (record : ResourceRecordV1 sha256) : Bool :=
  version.timestamp = record.timestamp && version.writer = record.writer &&
    version.removal = record.removed && version.digest = record.digest

end ResourceVersion

inductive ResourceCommitOutcome (sha256 : Hash) where
  | installed
  | superseded (winner : ResourceRecordV1 sha256)
  | indeterminate

/-! ## Single records -/

def readRow (sha256 : Hash) (row : Option (List UInt8)) : Option (ResourceRecordV1 sha256) :=
  row.bind fun bytes => (ResourceRecordV1.decode sha256 bytes).toOption

def incumbent (sha256 : Hash) (registers : Registers) (name : ResourceName) :
    Option (ResourceRecordV1 sha256) := readRow sha256 (registers.get? (recordKey name))

variable (registers : Registers) (record : ResourceRecordV1 sha256)

def install (bytes : List UInt8) : Registers := registers.insert (recordKey record.name) bytes

def commitPut (context : String) (ended : CommitEnd)
    : Commit Registers (ResourceCommitOutcome sha256) :=
  match record.encode, ended with
  | .error e, _ => .none registers (.error e)
  | .ok bytes, .committed => ⟨install registers record bytes, [], .ok .installed⟩
  | .ok _, .conflict | .ok _, .aborted => .none registers (.error (.conflict context))
  | .ok bytes, .unknown applied =>
    ⟨if applied then install registers record bytes else registers, [], .ok .indeterminate⟩

variable (commit : Commit Registers (ResourceCommitOutcome sha256))

def noteInstalled : Commit Registers (ResourceCommitOutcome sha256) :=
  match commit.answer with
  | .ok .installed => { commit with noted := [.resourceRecord] }
  | _ => commit

section

variable (registers : Registers) (record : ResourceRecordV1 sha256)

def commitExpectedRecord (expected : Option ResourceVersion) (ended : CommitEnd) :
    Commit Registers (ResourceCommitOutcome sha256) :=
  match incumbent sha256 registers record.name, expected with
  | some existing, expected =>
    if expected.any (fun version => !version.matchesRecord existing) ||
        !record.winsOver existing then
      .none registers (.ok (.superseded existing))
    else noteInstalled (commitPut registers record "resource record" ended)
  | none, some _ => .none registers (.error (.notFound "resource"))
  | none, none => noteInstalled (commitPut registers record "resource record" ended)

def commitRemoval (record expected : ResourceRecordV1 sha256) (ended : CommitEnd)
    : Commit Registers (ResourceCommitOutcome sha256) :=
  match registers.get? (recordKey record.name) with
  | none => .none registers (.error (.notFound "resource record"))
  | some bytes =>
    match ResourceRecordV1.decode sha256 bytes with
    | .error e => .none registers (.error e)
    | .ok existing =>
      if existing ≠ expected then .none registers (.ok (.superseded existing))
      else if !record.winsOver existing then
        .none registers (.error (.conflict "resource removal tuple"))
      else commitPut registers record "resource removal" ended

/-! ## Pages -/

def contend (page : List (ResourceRecordV1 sha256)) (record : ResourceRecordV1 sha256) :
    List (ResourceRecordV1 sha256) :=
  match page.find? fun r => recordKey r.name = recordKey record.name with
  | none => page ++ [record]
  | some standing =>
    if record.winsOver standing then
      page.map fun r => if recordKey r.name = recordKey record.name then record else r
    else page

def contest (records : List (ResourceRecordV1 sha256)) : List (ResourceRecordV1 sha256) :=
  records.foldl contend []

def superseded : Bool :=
  (incumbent sha256 registers record.name).any fun existing => !record.winsOver existing

end

def pagePuts (registers : Registers) :
    List (ResourceRecordV1 sha256) → Result (List (ResourceRecordV1 sha256 × List UInt8))
  | [] => .ok []
  | record :: records =>
    if superseded registers record then pagePuts registers records
    else do
      let bytes ← record.encode
      let puts ← pagePuts registers records
      pure ((record, bytes) :: puts)

section

variable (registers : Registers)

def landPuts (puts : List (ResourceRecordV1 sha256 × List UInt8)) :
    Registers := puts.foldl (fun regs put => install regs put.1 put.2) registers

def commitPageBatch (records : List (ResourceRecordV1 sha256)) (ended retried : CommitEnd)
    : Commit Registers (List (ResourceRecordV1 sha256)) :=
  match pagePuts registers (contest records) with
  | .error e => .none registers (.error e)
  | .ok [] => .none registers (.ok [])
  | .ok puts =>
    let last := match ended with
      | .conflict | .aborted => retried
      | ended => ended
    match last with
    | .committed => ⟨landPuts registers puts, [.resourceRecord], .ok (puts.map Prod.fst)⟩
    | .conflict | .aborted => .none registers (.error (.conflict "resource page"))
    | .unknown applied =>
      ⟨if applied then landPuts registers puts else registers, [], .error commitUnknown⟩

/-! ## What the commits do -/

lemma not_winsOver {a b : ResourceRecordV1 sha256} (h : (!a.winsOver b) = true) :
    a.rank ≤ b.rank := by
  rw [Bool.not_eq_true'] at h
  exact not_lt.mp fun hlt => absurd (ResourceRecordV1.winsOver_iff.mpr hlt) (by simp [h])

lemma get?_install_self (record : ResourceRecordV1 sha256) (bytes : List UInt8) :
    (install registers record bytes).get? (recordKey record.name) = some bytes :=
  OrdMap.get?_insert_self

end

variable {registers : Registers}

lemma get?_install_of_ne {record : ResourceRecordV1 sha256} {bytes key : List UInt8}
    (h : key ≠ recordKey record.name) :
    (install registers record bytes).get? key = registers.get? key := OrdMap.get?_insert_of_ne h

lemma commitPut_cases (registers : Registers) (record : ResourceRecordV1 sha256)
    (context : String) (ended : CommitEnd) :
    (∃ bytes, record.encode = .ok bytes ∧
        (commitPut registers record context ended =
          ⟨install registers record bytes, [], .ok .installed⟩ ∨
          ∃ applied : Bool, commitPut registers record context ended =
            ⟨if applied then install registers record bytes else registers, [],
              .ok .indeterminate⟩)) ∨
      ∃ e, commitPut registers record context ended = .none registers (.error e) := by
  unfold commitPut
  cases record.encode with
  | error e => exact .inr ⟨e, rfl⟩
  | ok bytes =>
    cases ended with
    | committed => exact .inl ⟨bytes, rfl, .inl rfl⟩
    | conflict | aborted => exact .inr ⟨_, rfl⟩
    | unknown applied => exact .inl ⟨bytes, rfl, .inr ⟨applied, rfl⟩⟩

lemma noteInstalled_registers : (noteInstalled commit).store = commit.store := by
  unfold noteInstalled
  split <;> rfl

lemma noteInstalled_answer : (noteInstalled commit).answer = commit.answer := by
  unfold noteInstalled
  split <;> rfl

structure Admitted (registers : Registers) (record : ResourceRecordV1 sha256)
    (expected : Option ResourceVersion) : Prop where
  observed : ∀ version ∈ expected, ∃ e, incumbent sha256 registers record.name = some e ∧
    version.matchesRecord e = true
  beats : ∀ e, incumbent sha256 registers record.name = some e → e.rank < record.rank

lemma commitExpectedRecord_cases (registers : Registers) (record : ResourceRecordV1 sha256)
    (expected : Option ResourceVersion) (ended : CommitEnd) :
    (∃ existing, incumbent sha256 registers record.name = some existing ∧
        commitExpectedRecord registers record expected ended =
          .none registers (.ok (.superseded existing)) ∧
        (expected = none → record.rank ≤ existing.rank)) ∨
      (expected ≠ none ∧ commitExpectedRecord registers record expected ended =
        .none registers (.error (.notFound "resource"))) ∨
      Admitted registers record expected ∧
        commitExpectedRecord registers record expected ended =
          noteInstalled (commitPut registers record "resource record" ended) := by
  unfold commitExpectedRecord
  cases hstored : incumbent sha256 registers record.name with
  | none =>
    cases expected with
    | none =>
      refine .inr (.inr ⟨⟨fun v hv => ?_, fun e he => ?_⟩, rfl⟩)
      · cases hv
      · rw [hstored] at he
        cases he
    | some version => exact .inr (.inl ⟨Option.some_ne_none version, rfl⟩)
  | some existing =>
    dsimp only
    split_ifs with hrefused
    · refine .inl ⟨existing, rfl, rfl, ?_⟩
      rintro rfl
      exact not_winsOver (by simpa using hrefused)
    · simp only [Bool.or_eq_true, not_or, Bool.not_eq_true, Bool.not_eq_false'] at hrefused
      refine .inr (.inr ⟨⟨fun version hversion => ⟨existing, hstored, ?_⟩, fun e he => ?_⟩, rfl⟩)
      · obtain rfl := hversion
        simpa using hrefused.1
      · obtain rfl := Option.some.inj (hstored.symm.trans he)
        exact ResourceRecordV1.winsOver_iff.mp hrefused.2

lemma commitRemoval_cases (registers : Registers) (record expected : ResourceRecordV1 sha256)
    (ended : CommitEnd) :
    (∃ answer, commitRemoval registers record expected ended = .none registers answer) ∨
      incumbent sha256 registers record.name = some expected ∧ expected.rank < record.rank ∧
        commitRemoval registers record expected ended =
          commitPut registers record "resource removal" ended := by
  unfold commitRemoval incumbent readRow
  cases registers.get? (recordKey record.name) with
  | none => exact .inl ⟨_, rfl⟩
  | some bytes =>
    dsimp only [Option.bind_some]
    cases ResourceRecordV1.decode sha256 bytes with
    | error e => exact .inl ⟨_, rfl⟩
    | ok existing =>
      dsimp only
      split_ifs with hsame hloses
      · exact .inl ⟨_, rfl⟩
      · exact .inl ⟨_, rfl⟩
      · obtain rfl : existing = expected := not_not.mp hsame
        have hwins : record.winsOver existing = true := by simpa using hloses
        exact .inr ⟨rfl, ResourceRecordV1.winsOver_iff.mp hwins, rfl⟩

lemma superseded_iff {r : ResourceRecordV1 sha256} : superseded registers r = true ↔
      ∃ e, incumbent sha256 registers r.name = some e ∧ r.rank ≤ e.rank := by
  unfold superseded
  cases incumbent sha256 registers r.name with
  | none => simp
  | some e => simp [← not_lt, ← ResourceRecordV1.winsOver_iff]

lemma pagePuts_eq_ok {page : List (ResourceRecordV1 sha256)}
    {puts : List (ResourceRecordV1 sha256 × List UInt8)} (h : pagePuts registers page = .ok puts) :
    puts.map Prod.fst = page.filter (fun r => !superseded registers r) ∧
      ∀ put ∈ puts, put.1.encode = .ok put.2 := by
  induction page generalizing puts with
  | nil =>
    obtain rfl := Except.ok.inj h
    exact ⟨rfl, by simp⟩
  | cons record page ih =>
    unfold pagePuts at h
    cases hsuperseded : superseded registers record with
    | true =>
      rw [hsuperseded, if_pos rfl] at h
      rw [List.filter_cons_of_neg (by simp [hsuperseded])]
      exact ih h
    | false =>
      rw [hsuperseded, if_neg (by decide)] at h
      obtain ⟨bytes, hbytes, h⟩ := bind_eq_ok.mp h
      obtain ⟨rest, hrest, h⟩ := bind_eq_ok.mp h
      obtain rfl := Except.ok.inj h
      obtain ⟨hmap, hencoded⟩ := ih hrest
      rw [List.filter_cons_of_pos (by simp [hsuperseded]), List.map_cons, hmap]
      refine ⟨rfl, fun put hput => ?_⟩
      rcases List.mem_cons.mp hput with rfl | hput
      · exact hbytes
      · exact hencoded put hput

lemma commitPageBatch_cases (registers : Registers) (records : List (ResourceRecordV1 sha256))
    (ended retried : CommitEnd) :
    (∃ puts, pagePuts registers (contest records) = .ok puts ∧
        ((puts ≠ [] ∧ commitPageBatch registers records ended retried =
            ⟨landPuts registers puts, [.resourceRecord], .ok (puts.map Prod.fst)⟩) ∨
          (puts = [] ∧ commitPageBatch registers records ended retried =
            .none registers (.ok [])) ∨
          ∃ applied : Bool, commitPageBatch registers records ended retried =
            ⟨if applied then landPuts registers puts else registers, [], .error commitUnknown⟩)) ∨
      ∃ e, commitPageBatch registers records ended retried = .none registers (.error e) := by
  unfold commitPageBatch
  cases pagePuts registers (contest records) with
  | error e => exact .inr ⟨e, rfl⟩
  | ok puts =>
    cases puts with
    | nil => exact .inl ⟨[], rfl, .inr (.inl ⟨rfl, rfl⟩)⟩
    | cons put puts =>
      dsimp only
      generalize (match ended with
        | .conflict | .aborted => retried
        | ended => ended) = last
      cases last with
      | committed => exact .inl ⟨_, rfl, .inl ⟨List.cons_ne_nil _ _, rfl⟩⟩
      | conflict | aborted => exact .inr ⟨_, rfl⟩
      | unknown applied => exact .inl ⟨_, rfl, .inr (.inr ⟨applied, rfl⟩)⟩

end Radiata.Resource
