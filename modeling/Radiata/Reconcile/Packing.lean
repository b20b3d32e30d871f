import Radiata.Reconcile.Split

/-!
# Row packing

What `packRows` does with the rows of a range, stated once: the messages carry a
prefix of the rows in order, all of them unless the ceiling cut the emission; each
message respects the row and byte budgets; and while there is room, owed work
starts.  `pushRows` is then appending such messages to the backlog.
-/

namespace Radiata.Reconcile

open Lib

def Message.payload : Message → List Row
  | rows _ carried => carried
  | _ => []

def Message.isRows : Message → Bool
  | rows _ _ => true
  | _ => false

def payloads (messages : List Message) : List Row := messages.flatMap Message.payload

@[simp] lemma payloads_nil : payloads [] = [] := rfl

@[simp] lemma payloads_cons (m : Message) (ms : List Message) :
    payloads (m :: ms) = m.payload ++ payloads ms := rfl

@[simp] lemma payloads_append (as bs : List Message) :
    payloads (as ++ bs) = payloads as ++ payloads bs := by
  simp [payloads]

structure Packed (rows : List Row) : Prop where
  length_le : rows.length ≤ maxRowsPerMessage
  bytes_le : rows.length ≤ 1 ∨ (rows.map Row.cost).sum ≤ rowBytesBudget

lemma Packed.nil : Packed [] := ⟨by simp, Or.inl (by simp)⟩

lemma Packed.singleton (row : Row) : Packed [row] := ⟨by simp [maxRowsPerMessage], Or.inl (by simp)⟩

structure Packs (lane : LaneId) (answer : Bool) (room : ℕ) (rows : List Row)
    (messages : List Message) (stopped : Bool) : Prop where
  shape : ∀ m ∈ messages,
    ∃ carried, m = .rows lane carried ∧ Packed carried ∧ (answer = false → carried ≠ [])
  length_le : messages.length ≤ room
  carries : payloads messages <+: rows
  whole : stopped = false → payloads messages = rows
  starts : 0 < room → answer = true ∨ rows ≠ [] →
    ∃ carried rest, messages = .rows lane carried :: rest ∧ (rows ≠ [] → carried ≠ [])

lemma packRows_packs (lane : LaneId) (answer : Bool) (rows : List Row) :
    ∀ (room : ℕ) (chunk : List Row) (bytes : ℕ), Packed chunk → bytes = (chunk.map Row.cost).sum →
      Packs lane answer room (chunk ++ rows) (packRows lane answer room chunk bytes rows).1
        (packRows lane answer room chunk bytes rows).2 := by
  induction rows with
  | nil =>
    intro room chunk bytes hpacked _
    rw [packRows, List.append_nil]
    split_ifs with howed hroom
    · refine ⟨?_, hroom, by simp [Message.payload], by simp [Message.payload],
        fun _ _ => ⟨chunk, [], rfl, id⟩⟩
      intro m hm
      obtain rfl := List.mem_singleton.mp hm
      refine ⟨chunk, rfl, hpacked, ?_⟩
      rintro rfl rfl
      simp at howed
    · exact ⟨by simp, by simp, by simp, by simp, fun h => absurd h hroom⟩
    · obtain ⟨rfl, rfl⟩ : chunk = [] ∧ answer = false := by simpa using howed
      exact ⟨by simp, by simp, by simp, by simp, by simp⟩
  | cons row rows ih =>
    intro room chunk bytes hpacked hbytes
    rw [packRows.eq_def]
    dsimp only
    split_ifs with hflush
    · have hchunk : chunk ≠ [] := by
        rintro rfl
        simp at hflush
      cases room with
      | zero => exact ⟨by simp, by simp, by simp, by simp, by simp⟩
      | succ room =>
        -- The chunk closes and the row opens the next one.
        have hrest := ih room [row] row.cost (.singleton row) (by simp)
        refine ⟨?_, by simpa using hrest.length_le, ?_, ?_,
          fun _ _ => ⟨chunk, _, rfl, fun _ => hchunk⟩⟩
        · intro m hm
          rcases List.mem_cons.mp hm with rfl | hm
          · exact ⟨chunk, rfl, hpacked, fun _ => hchunk⟩
          · exact hrest.shape m hm
        · simpa [Message.payload] using hrest.carries
        · intro hstopped
          simpa [Message.payload] using hrest.whole hstopped
    · have hfits : Packed (chunk ++ [row]) := by
        rcases chunk with _ | ⟨first, chunk⟩
        · exact .singleton row
        · simp only [List.isEmpty_cons, Bool.not_false, Bool.true_and, Bool.or_eq_true,
            decide_eq_true_eq, not_or, not_le, not_lt] at hflush
          exact ⟨by simpa using hflush.1, Or.inr (by simpa [hbytes, add_assoc] using hflush.2)⟩
      have hrest := ih room (chunk ++ [row]) (bytes + row.cost) hfits (by simp [hbytes])
      rwa [List.append_assoc, List.singleton_append] at hrest

namespace Engine

variable (e : Engine)

def rowMessages (start stop : UInt64) (answer : Bool) : List Message :=
  (packRows e.lane answer (rowsBacklogCeiling - e.queuedRowsMessages) [] 0
    ((e.entries start stop).map Prod.snd)).1

def rowsStopped (start stop : UInt64) (answer : Bool) : Bool :=
  (packRows e.lane answer (rowsBacklogCeiling - e.queuedRowsMessages) [] 0
    ((e.entries start stop).map Prod.snd)).2

def emissionHistory (start stop : UInt64) (answer : Bool) : History :=
  { e.history with ceilingStops :=
    e.history.ceilingStops + if e.rowsStopped start stop answer then 1 else 0 }

lemma pushRows_eq (start stop : UInt64) (answer : Bool) : e.pushRows start stop answer =
      ((e.rowMessages start stop answer).length,
        { e with
          backlog := e.backlog ++ e.rowMessages start stop answer
          history := e.emissionHistory start stop answer }) := rfl

lemma rowMessages_packs (start stop : UInt64) (answer : Bool) :
    Packs e.lane answer (rowsBacklogCeiling - e.queuedRowsMessages)
      ((e.index.entriesIn start stop).map Prod.snd)
      (e.rowMessages start stop answer) (e.rowsStopped start stop answer) := by
  have h := packRows_packs e.lane answer ((e.entries start stop).map Prod.snd)
    (rowsBacklogCeiling - e.queuedRowsMessages) [] 0 .nil rfl
  rw [List.nil_append, entries_eq] at h
  rwa [rowMessages, rowsStopped, entries_eq]

end Engine

end Radiata.Reconcile
