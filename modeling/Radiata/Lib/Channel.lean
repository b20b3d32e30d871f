import Mathlib.Data.List.Basic

/-!
# Bounded channels

A queue with a bounded number of slots, one sender and one receiver.  Either end can go away.  A
channel whose receiver is gone takes nothing more, and what was queued is lost with it.
-/

namespace Radiata.Lib

structure Channel (α : Type*) where
  queue : List α
  sender : Bool
  receiver : Bool

namespace Channel

variable {α : Type*} (slots : ℕ) (c : Channel α) (a : α)

def fresh : Channel α := ⟨[], true, true⟩

def capacity : ℕ := slots - c.queue.length

def push : Channel α := { c with queue := c.queue ++ [a] }

def trySend : Option (Channel α) :=
  if c.receiver = true ∧ 0 < c.capacity slots then some (c.push a) else none

def dropSender : Channel α := { c with sender := false }

def dropReceiver : Channel α := { c with queue := [], receiver := false }

variable {slots c a}

theorem trySend_of_room (live : c.receiver = true) (room : c.queue.length < slots) :
    c.trySend slots a = some (c.push a) :=
  if_pos ⟨live, Nat.sub_pos_of_lt room⟩

theorem trySend_of_gone (gone : c.receiver = false) : c.trySend slots a = none :=
  if_neg fun h => by
    rw [gone] at h
    exact Bool.false_ne_true h.1

end Channel

end Radiata.Lib
