import Radiata.Reconcile.Flood

/-!
# Receiver-evidenced payload

An engine sends a row only where the peer showed, in what is being processed, that it
may lack it: it asked for a bound around the row, it claimed an empty range around it,
or it claimed a different single row at its digest.  The rows piggybacked on a hint are
the one exception, and they are few, small and freshly inserted.
-/

namespace Radiata.Reconcile

open Lib Engine

/-! ## Claims that call for rows -/

/-- A claim that entitles the peer to the rows of its range: it differs from the local
aggregate, and it is empty or about a single digest. -/
structure Lacking (e : Engine) (t : Triple) : Prop where
  differs : e.rangeFingerprint t.start t.stop ≠ t.peer
  narrow : t.peer.count = 0 ∨ t.peer.count ≠ 0 ∧ t.start = t.stop

variable {e : Engine} {t : Triple}

lemma lacking_of_mem_pushesFor {bound : UInt64 × UInt64} (h : bound ∈ e.pushesFor t) :
    Lacking e t ∧ bound = (t.start, t.stop) := by
  unfold pushesFor verdict at h
  by_cases hsame : e.rangeFingerprint t.start t.stop = t.peer
  · simp [hsame] at h
  by_cases hpeer : t.peer.count = 0
  · simp only [if_neg hsame, if_pos hpeer, List.mem_singleton] at h
    exact ⟨⟨hsame, Or.inl hpeer⟩, h⟩
  by_cases hheld : (e.rangeFingerprint t.start t.stop).count = 0
  · simp [hsame, hpeer, hheld] at h
  by_cases hpoint : t.start = t.stop
  · simp only [if_neg hsame, if_neg hpeer, if_neg hheld, if_pos hpoint, List.mem_singleton] at h
    exact ⟨⟨hsame, Or.inr ⟨hpeer, hpoint⟩⟩, h⟩
  · simp [hsame, hpeer, hheld, hpoint] at h

inductive Evidence (e e' : Engine) (input : Drive) (digest : UInt64) : Prop where
  | asked {bound : DigestRange} (h : Engine.asked input bound)
      (hinside : bound.start ≤ digest ∧ digest ≤ bound.stop) : Evidence e e' input digest
  | claimed {t : Triple} (h : e.claimed input t) (hlacking : Lacking e' t)
      (hinside : t.start ≤ digest ∧ digest ≤ t.stop) : Evidence e e' input digest

/-- The input gives no evidence of its own: it is no question, and what it claims
matches the rows. -/
def Drive.Settled (e' : Engine) : Drive → Prop
  | .localChange | .localChangeEager | .drain => True
  | .message (.rows _ _) | .message (.done _ _) => True
  | .message (.root _ count xor) => e'.index.root = ⟨count, xor⟩
  | .message (.hint _ ranges _) | .message (.offer _ ranges) =>
    ∀ range ∈ ranges, e'.rangeFingerprint range.start range.stop = range.triple.peer
  | .message (.need _ _) | .rootExchange => False

variable {e' : Engine} {input : Drive}

lemma Drive.Settled.heldClaim (h : input.Settled e') (ht : e.claimed input t)
    (hdiffers : e'.rangeFingerprint t.start t.stop ≠ t.peer) : e.heldClaim t := by
  cases input with
  | message m =>
    cases m with
    | root lane count xor =>
      rcases ht with rfl | hheld
      · exact absurd (e'.rangeFingerprint_whole.trans h) hdiffers
      · exact hheld
    | hint lane ranges rows | offer lane ranges =>
      rcases ht with ⟨range, hrange, rfl⟩ | hheld
      · exact absurd (h range hrange) hdiffers
      · exact hheld
    | need lane bounds => exact h.elim
    | rows lane carried => exact ht
    | done lane token => exact ht
  | rootExchange => exact h.elim
  | localChange | localChangeEager | drain => exact ht

lemma Drive.Settled.not_asked (h : input.Settled e') (bound : DigestRange) :
    ¬ Engine.asked input bound := by
  cases input with
  | message m =>
    cases m with
    | need lane bounds => exact h.elim
    | root | hint | offer | rows | done => exact id
  | rootExchange | localChange | localChangeEager | drain => exact id

/-! ## ROWS messages -/

variable {sha256 : Hash} {m : Message}

lemma evidence_of_queued (hkeyed : Keyed sha256 (e.drive sha256 input).2.index)
    (hm : m ∈ e.queued sha256 input) {row : Row} (hrow : row ∈ m.payload) :
    ∃ digest, itemDigest sha256 row.key row.content = .ok digest ∧
      Evidence e (e.drive sha256 input).2 input digest := by
  have hheld {bound : UInt64 × UInt64}
      (h : row ∈ (e.drive sha256 input).2.rowsIn bound) :
      ∃ digest, itemDigest sha256 row.key row.content = .ok digest ∧
        bound.1 ≤ digest ∧ digest ≤ bound.2 := by
    obtain ⟨entry, hentry, rfl⟩ := List.mem_map.mp h
    obtain ⟨hmem, hinside⟩ := LiveIndex.mem_entriesIn.mp hentry
    exact ⟨entry.1, hkeyed entry hmem, hinside⟩
  rcases drive_emits sha256 e input hm with hann | hemitted
  · have hquiet := isRows_of_mem_announcement hann
    cases m with
    | rows => cases hquiet
    | root | hint | offer | need | done => exact absurd hrow List.not_mem_nil
  · cases hemitted with
    | offer | need | receipt => exact absurd hrow List.not_mem_nil
    | push ht hbound _ hsub =>
      obtain ⟨hlacking, rfl⟩ := lacking_of_mem_pushesFor hbound
      obtain ⟨digest, hdigest, hinside⟩ := hheld (hsub hrow)
      exact ⟨digest, hdigest, .claimed ht hlacking hinside⟩
    | answer hbound _ hsub =>
      obtain ⟨digest, hdigest, hinside⟩ := hheld (hsub hrow)
      exact ⟨digest, hdigest, .asked hbound hinside⟩

lemma heldClaim_of_queued (hsettled : input.Settled (e.drive sha256 input).2)
    (hm : m ∈ e.queued sha256 input) (hrows : m.isRows = true) :
    ∃ t, e.heldClaim t ∧ Lacking (e.drive sha256 input).2 t ∧
      m.payload ⊆ (e.drive sha256 input).2.rowsIn (t.start, t.stop) := by
  rcases drive_emits sha256 e input hm with hann | hemitted
  · rw [isRows_of_mem_announcement hann] at hrows
    cases hrows
  · cases hemitted with
    | offer | need | receipt => cases hrows
    | push ht hbound _ hsub =>
      obtain ⟨hlacking, rfl⟩ := lacking_of_mem_pushesFor hbound
      exact ⟨_, hsettled.heldClaim ht hlacking.differs, hlacking, hsub⟩
    | answer hbound => exact absurd hbound (hsettled.not_asked _)

/-! ## Piggybacked rows -/

def insertedSince (ops : List Op) : List Row :=
  ops.foldl (fun rows op =>
    match op with
    | .insertRow key content => rows ++ [⟨key, content⟩]
    | .drive .localChange | .drive .localChangeEager | .drive .rootExchange => []
    | _ => rows) []

lemma insertedSince_append (ops : List Op) (op : Op) :
    insertedSince (ops ++ [op]) =
      match op with
      | .insertRow key content => insertedSince ops ++ [⟨key, content⟩]
      | .drive .localChange | .drive .localChangeEager | .drive .rootExchange => []
      | _ => insertedSince ops := by
  rw [insertedSince, List.foldl_append]
  rfl

def EagerFresh (sha256 : Hash) (ops : List Op) (e : Engine) : Prop :=
  ∀ digest ∈ e.eager, ∃ row ∈ insertedSince ops,
    itemDigest sha256 row.key row.content = .ok digest

section

variable (e : Engine) (digest : UInt64)

lemma markDirty_eager : (e.markDirty digest).eager = e.eager := by
  unfold Engine.markDirty
  cases e.dirty with
  | none => rfl
  | some bounds =>
    dsimp only
    split_ifs <;> rfl

lemma noteEager_subset (rowBytes : ℕ) :
    (e.noteEager digest rowBytes).eager ⊆ e.eager ++ [digest] := by
  unfold Engine.noteEager
  split_ifs
  · exact List.subset_append_left _ _
  · exact List.Subset.refl _

lemma store_quiet_eager (row : Row) : (e.store digest row false).eager = e.eager := by
  unfold Engine.store
  dsimp only
  cases (e.index.insert digest row).1 with
  | some previous => rfl
  | none => exact markDirty_eager _ digest

lemma store_eager_subset (row : Row) : (e.store digest row true).eager ⊆ e.eager ++ [digest] := by
  unfold Engine.store
  dsimp only
  cases (e.index.insert digest row).1 with
  | some previous => exact List.subset_append_left _ _
  | none =>
    refine List.Subset.trans (noteEager_subset _ digest _) ?_
    rw [markDirty_eager]
    exact List.Subset.refl _

end

lemma intake_eager (h : Intake sha256 m e e') : e'.eager = e.eager := by
  induction h with
  | refl => rfl
  | tail _ hstep ih =>
    cases hstep with
    | hear | learn => exact ih
    | store => exact (store_quiet_eager _ _ _).trans ih

namespace EagerFresh

variable {sha256 : Hash} {ops : List Op} {e : Engine}

section

variable (h : EagerFresh sha256 ops e)
include h

variable (key : List UInt8) (content : List UInt8)

lemma insertRow :
    EagerFresh sha256 (ops ++ [.insertRow key content]) (e.insertRow sha256 key content).2 := by
  have hkept (digest : UInt64) (hmem : digest ∈ e.eager) :
      ∃ row ∈ insertedSince ops ++ [⟨key, content⟩],
        itemDigest sha256 row.key row.content = .ok digest := by
    obtain ⟨row, hrow, hdigest⟩ := h digest hmem
    exact ⟨row, List.mem_append_left _ hrow, hdigest⟩
  rw [EagerFresh, insertedSince_append]
  unfold Engine.insertRow Engine.insertRowInner
  split_ifs
  · exact hkept
  · cases hdigest : itemDigest sha256 key content with
    | error err => exact hkept
    | ok digest =>
      intro other hother
      rcases List.mem_append.mp (store_eager_subset e digest ⟨key, content⟩ hother) with
        hold | hnew
      · exact hkept other hold
      · rw [List.mem_singleton.mp hnew]
        exact ⟨⟨key, content⟩, List.mem_append_right _ List.mem_cons_self, hdigest⟩

lemma insertRowQuiet : EagerFresh sha256 (ops ++ [.insertRowQuiet key content])
      (e.insertRowQuiet sha256 key content).2 := by
  rw [EagerFresh, insertedSince_append]
  unfold Engine.insertRowQuiet Engine.insertRowInner
  split_ifs
  · exact h
  · cases itemDigest sha256 key content with
    | error err => exact h
    | ok digest =>
      dsimp only
      rw [store_quiet_eager]
      exact h

lemma removeRow :
    EagerFresh sha256 (ops ++ [.removeRow key content]) (e.removeRow sha256 key content).2 := by
  rw [EagerFresh, insertedSince_append]
  unfold Engine.removeRow
  cases itemDigest sha256 key content with
  | error err => exact h
  | ok digest =>
    dsimp only
    cases (e.index.remove digest).1 with
    | none => exact h
    | some removed =>
      dsimp only
      rw [markDirty_eager]
      exact h

lemma drive (input : Drive) :
    EagerFresh sha256 (ops ++ [.drive input]) (e.drive sha256 input).2 := by
  obtain ⟨e₁, hprepared, -, heager⟩ := e.drive_index sha256 input
  rw [EagerFresh, insertedSince_append, heager]
  cases hprepared with
  | message hintake =>
    rw [intake_eager hintake, opened_eager]
    exact h
  | localChange | localChangeEager | rootExchange =>
    exact fun digest hmem => absurd hmem List.not_mem_nil
  | drain =>
    rw [opened_eager]
    exact h

end

end EagerFresh

/-- **Along every run the candidates are fresh.** -/
theorem run_eagerFresh (sha256 : Hash) (lane : LaneId) (ops : List Op) :
    EagerFresh sha256 ops (run sha256 lane ops) := by
  refine run_trace_invariant (fun digest hmem => absurd hmem List.not_mem_nil) ?_ ops
  intro ops op e h
  cases op with
  | insertRow key content => exact h.insertRow key content
  | insertRowQuiet key content => exact h.insertRowQuiet key content
  | removeRow key content => exact h.removeRow key content
  | drive input => exact h.drive input

lemma run_tracked (sha256 : Hash) (lane : LaneId) (ops : List Op) :
    Tracked (run sha256 lane ops) :=
  run_trace_invariant (P := fun _ e => Tracked e) (FloodBounds.new lane).tracked
    (fun _ op _ h => h.step sha256 op) ops

lemma hint_of_queued {lane : LaneId} {ranges : List RangeFingerprint} {rows : List Row}
    (hm : .hint lane ranges rows ∈ e.queued sha256 input) (hrows : rows ≠ []) :
    input = .localChangeEager ∧ rows = eagerRows e.index 0 e.eager := by
  rcases drive_emits sha256 e input hm with hann | hemitted
  · rcases mem_announcement hann with ⟨-, heq⟩ | ⟨-, heq⟩ | ⟨hinput, heq⟩
    · cases heq
    · cases heq
      exact absurd rfl hrows
    · cases heq
      exact ⟨hinput, rfl⟩
  · cases hemitted

/-! ## The rule -/

/-- **Receiver-evidenced payload.**  Whatever the operations before, a drive sends a row
only on the peer's evidence; an input without evidence of its own sends rows only for
the hints held before it; and a hint carries rows only on an eager local change, within
the ceilings, each held and with the digest of a row inserted since the last change or
root drive. -/
theorem payload_evidenced (sha256 : Hash) (lane : LaneId) (ops : List Op) (input : Drive) :
    (∀ m ∈ (run sha256 lane ops).queued sha256 input, ∀ row ∈ m.payload,
      ∃ digest, itemDigest sha256 row.key row.content = .ok digest ∧
        Evidence (run sha256 lane ops) ((run sha256 lane ops).drive sha256 input).2 input
          digest) ∧
    (input.Settled ((run sha256 lane ops).drive sha256 input).2 →
      ∀ m ∈ (run sha256 lane ops).queued sha256 input, m.isRows = true →
        ∃ t, (run sha256 lane ops).heldClaim t ∧
          Lacking ((run sha256 lane ops).drive sha256 input).2 t ∧
          m.payload ⊆ ((run sha256 lane ops).drive sha256 input).2.rowsIn (t.start, t.stop)) ∧
    (∀ lane' ranges rows,
      .hint lane' ranges rows ∈ (run sha256 lane ops).queued sha256 input → rows ≠ [] →
        input = .localChangeEager ∧ rows.length ≤ maxRowsPerMessage ∧
        (rows.map Row.cost).sum ≤ eagerDeltaBytes ∧
        ∀ row ∈ rows, row ∈ (run sha256 lane ops).rows ∧
          ∃ inserted ∈ insertedSince ops,
            itemDigest sha256 inserted.key inserted.content =
              itemDigest sha256 row.key row.content) := by
  have hkeyed : Keyed sha256 ((run sha256 lane ops).drive sha256 input).2.index := by
    have h := run_keyed sha256 lane (ops ++ [.drive input])
    rwa [run_append] at h
  refine ⟨fun m hm row hrow => evidence_of_queued hkeyed hm hrow,
    fun hsettled m hm hrows => heldClaim_of_queued hsettled hm hrows, ?_⟩
  intro lane' ranges rows hm hrows
  obtain ⟨hinput, rfl⟩ := hint_of_queued hm hrows
  obtain ⟨hlength, hbytes, hheld⟩ := eagerRows_spec (run sha256 lane ops).index 0
    (run sha256 lane ops).eager (Nat.zero_le _)
  refine ⟨hinput, hlength.trans (run_tracked sha256 lane ops).eager, by omega, ?_⟩
  intro row hrow
  obtain ⟨digest, hdigest, hmem⟩ := hheld row hrow
  obtain ⟨inserted, hinserted, hsame⟩ := run_eagerFresh sha256 lane ops digest hdigest
  exact ⟨List.mem_map_of_mem hmem, inserted, hinserted,
    hsame.trans (run_keyed sha256 lane ops _ hmem).symm⟩

/-- The hash of the preimage `[h'01', h'02']`, whatever is asked: enough for runs over the
one row with key `01` and content `02`. -/
def oneRowHash : Hash := fun _ =>
  #v[0x10, 0x63, 0x37, 0x98, 0x1c, 0x29, 0xa4, 0xdb, 0x42, 0x79, 0xba, 0x62, 0xaf, 0x4b, 0x40,
    0x15, 0xad, 0x12, 0x53, 0x56, 0x02, 0xe4, 0x62, 0xe1, 0x23, 0x10, 0x0f, 0x94, 0xab, 0x1f,
    0x15, 0x19]

/-- An empty ROWS message queues a ROWS message: a first hint opens a round and leaves a
question open, a second hint claims an empty lane and is held, and the ROWS message
answers the question, so the round closes and the held hint is replayed. -/
theorem rows_input_queues_rows :
    (run oneRowHash .descriptors
      [.insertRow [1] [2],
        .drive (.message (.hint .descriptors [⟨0, maxWord, 5, 0⟩] [])),
        .drive (.message (.hint .descriptors [⟨0, maxWord, 0, 0⟩] []))]).queued oneRowHash
          (.message (.rows .descriptors [])) =
      [.done .descriptors 15171719997116272232, .rows .descriptors [⟨[1], [2]⟩]] := by
  decide +kernel

end Radiata.Reconcile
