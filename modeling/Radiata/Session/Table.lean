import Radiata.Identity.Id

/-!
# The session table

A node keeps at most one session entry for each peer.  An entry names the connection it serves,
and the connection's liveness flag is shared with the task that serves it: a retired or ended
connection is not alive, wherever its entry is.
-/

namespace Radiata.Session

open Function (update update_of_ne update_self)

inductive DialDirection where
  | outgoing
  | incoming
deriving DecidableEq

def keepConnection (localNode peer : NodeId) : DialDirection → Bool
  | .outgoing => decide (localNode < peer)
  | .incoming => decide (peer < localNode)

structure SessionEntry (κ : Type) where
  connection : κ
  direction : DialDirection
  generation : UInt64

structure SessionTable (κ : Type) where
  entries : NodeId → Option (SessionEntry κ)
  alive : κ → Bool

namespace SessionTable

variable {κ : Type} [DecidableEq κ] (table : SessionTable κ) (localNode peer : NodeId)

def Live : Prop := ∃ entry, table.entries peer = some entry ∧ table.alive entry.connection = true

def kill (connection : κ) : SessionTable κ :=
  { table with alive := Function.update table.alive connection false }

/-- A new connection takes the place of the entry: there is none, it is dead, the rule prefers
the new direction, or both have one direction and the newest wins. -/
def replaces (direction : DialDirection) : Bool :=
  match table.entries peer with
  | none => true
  | some previous =>
    if table.alive previous.connection = false then true
    else
      let keepExisting := keepConnection localNode peer previous.direction
      let keepNew := keepConnection localNode peer direction
      if keepExisting ≠ keepNew then keepNew else true

def nextGeneration : UInt64 :=
  match table.entries peer with
  | none => 1
  | some previous =>
    if previous.generation = UInt64.ofNat (2 ^ 64 - 1) then previous.generation
    else previous.generation + 1

def insert (connection : κ) (direction : DialDirection) : SessionTable κ :=
  { table with
    entries := Function.update table.entries peer
      (some ⟨connection, direction, table.nextGeneration peer⟩) }

def retire : Option (SessionEntry κ) → SessionTable κ
  | none => table
  | some entry => table.kill entry.connection

def retireSession : SessionTable κ :=
  { table with entries := Function.update table.entries peer none }.retire (table.entries peer)

def cleanup : SessionTable κ :=
  match table.entries peer with
  | some current =>
    if table.alive current.connection = false then
      { table with entries := Function.update table.entries peer none }
    else table
  | none => table

variable {table peer}

@[simp] lemma entries_retire (entry : Option (SessionEntry κ)) :
    (table.retire entry).entries = table.entries := by
  cases entry <;> rfl

@[simp] lemma entries_retireSession :
    (table.retireSession peer).entries = update table.entries peer none :=
  entries_retire _

variable {other : NodeId}

lemma entries_retireSession_eq_none (h : table.entries other = none) :
    (table.retireSession peer).entries other = none := by
  rw [entries_retireSession]
  by_cases heq : other = peer
  · subst heq
    exact update_self _ _ _
  · exact (update_of_ne heq _ _).trans h

variable {connection : κ} {direction : DialDirection}

omit [DecidableEq κ] in
lemma entries_insert_of_ne (h : other ≠ peer) :
    (table.insert peer connection direction).entries other = table.entries other :=
  update_of_ne h _ _

omit [DecidableEq κ] in
lemma entries_insert_self : (table.insert peer connection direction).entries peer =
      some ⟨connection, direction, table.nextGeneration peer⟩ :=
  update_self _ _ _

lemma alive_kill_of_ne {other : κ} (h : other ≠ connection) :
    (table.kill connection).alive other = table.alive other :=
  update_of_ne h _ _

lemma alive_retire_of_ne {entry : Option (SessionEntry κ)} {other : κ}
    (h : ∀ previous, entry = some previous → other ≠ previous.connection) :
    (table.retire entry).alive other = table.alive other := by
  cases entry with
  | none => rfl
  | some previous => exact alive_kill_of_ne (h previous rfl)

omit [DecidableEq κ] in
@[simp] lemma alive_cleanup : (table.cleanup peer).alive = table.alive := by
  unfold cleanup
  split
  · split_ifs <;> rfl
  · rfl

omit [DecidableEq κ] in
lemma cleanup_of_alive {current : SessionEntry κ} (h : table.entries peer = some current)
    (alive : table.alive current.connection = true) : table.cleanup peer = table := by
  unfold cleanup
  rw [h]
  dsimp only
  rw [if_neg (by rw [alive]; exact nofun)]

omit [DecidableEq κ] in
lemma entries_of_cleanup {entry : SessionEntry κ}
    (h : (table.cleanup peer).entries other = some entry) : table.entries other = some entry := by
  unfold cleanup at h
  split at h
  · split_ifs at h
    · by_cases heq : other = peer
      · subst heq
        cases (update_self _ _ _).symm.trans h
      · exact (update_of_ne heq _ _).symm.trans h
    · exact h
  · exact h

omit [DecidableEq κ] in
lemma entries_cleanup_eq_none (h : table.entries other = none) :
    (table.cleanup peer).entries other = none := by
  rw [Option.eq_none_iff_forall_ne_some] at h ⊢
  exact fun entry hentry => h entry (entries_of_cleanup hentry)

end SessionTable

/-! Two nodes for runs on fixed inputs. -/

def firstNode : NodeId := ⟨"node-aaaaaaaaaaaaaaaaaaaaa".toList, by decide +kernel⟩

def secondNode : NodeId := ⟨"node-bbbbbbbbbbbbbbbbbbbbb".toList, by decide +kernel⟩

end Radiata.Session
