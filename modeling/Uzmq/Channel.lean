import Mathlib

/-!
# Queues with a published part

The writer of a channel adds items that are complete or to be continued. It takes
back items to be continued, newest first, and publishes the complete ones. The
reader sees what has been published.
-/

namespace Uzmq

universe u

structure Channel (α : Type u) where
  flushed : List α := []
  finished : List α := []
  unfinished : List α := []
  deriving DecidableEq, Repr

namespace Channel
variable {α : Type u}
variable (c : Channel α)

/-- A complete item completes the unfinished ones before it. -/
def write (value : α) (incomplete : Bool) : Channel α :=
  if incomplete then { c with unfinished := c.unfinished ++ [value] }
  else { c with finished := c.finished ++ c.unfinished ++ [value], unfinished := [] }

def unpush : Channel α := { c with unfinished := c.unfinished.dropLast }

def unwrite : Option (α × Channel α) :=
  c.unfinished.getLast?.map fun value => (value, c.unpush)

def flush : Channel α :=
  { c with flushed := c.flushed ++ c.finished, finished := [] }

def checkRead : Bool := !c.flushed.isEmpty

def pop : Channel α := { c with flushed := c.flushed.tail }

def read : Option (α × Channel α) :=
  c.flushed.head?.map fun value => (value, c.pop)

theorem mem_unfinished_write {c : Channel α} {value a : α} {incomplete : Bool}
    (h : a ∈ (c.write value incomplete).unfinished) :
    a ∈ c.unfinished ∨ a = value ∧ incomplete = true := by
  cases incomplete with
  | false => cases h
  | true =>
    rcases List.mem_append.mp h with h | h
    · exact .inl h
    · exact .inr ⟨List.mem_singleton.mp h, rfl⟩

end Channel

end Uzmq
