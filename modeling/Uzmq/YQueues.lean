import Uzmq.Linked
import Uzmq.YPipes

/-!
# Queues made of chunks

`yqueue_t`: elements lie in chunks of `n`, which are linked with each other; one
chunk that was read to its end is kept for the writer. A chunk is its address, and
`malloc` may return every address that is not in use.

The elements from the front to the back are those of a queue with consecutive
positions, each with an address of its own.
-/

namespace Uzmq.YQueues

open Function
open Linked YPipes

structure Chunk (α : Type) where
  values : Nat → Option α := fun _ => none
  prev : Option Nat := none
  next : Option Nat := none

/-- `crashed` records that a null pointer or a freed chunk was used. -/
structure YQueue (n : Nat) (α : Type) where
  chunks : Nat → Option (Chunk α)
  beginChunk : Nat
  beginPos : Nat := 0
  backChunk : Option Nat := none
  backPos : Nat := 0
  endChunk : Nat
  endPos : Nat := 0
  spareChunk : Option Nat := none
  crashed : Bool := false

namespace YQueue
variable {n : Nat} {α : Type}
variable (q : YQueue n α)

def edit (c : Nat) (f : Chunk α → Chunk α) : YQueue n α :=
  match q.chunks c with
  | none => { q with crashed := true }
  | some k => { q with chunks := update q.chunks c (some (f k)) }

def setPrev (c : Nat) (v : Option Nat) : YQueue n α :=
  q.edit c fun k => { k with prev := v }

def setNext (c : Nat) (v : Option Nat) : YQueue n α :=
  q.edit c fun k => { k with next := v }

def xfree (c : Option Nat) : YQueue n α :=
  match c with
  | none => q
  | some c => { q with chunks := update q.chunks c none }

/-- The constructor, for a chunk at address `first`. -/
def create (first : Nat) : YQueue n α where
  chunks := update (fun _ => none) first (some {})
  beginChunk := first
  endChunk := first

def appendChunk (c : Nat) : YQueue n α :=
  let q := q.setNext q.endChunk (some c)
  let q := q.setPrev c (some q.endChunk)
  { q with endChunk := c, endPos := 0 }

def push (fresh : Nat) : Option (YQueue n α) :=
  let q : YQueue n α := { q with backChunk := some q.endChunk, backPos := q.endPos }
  if q.endPos + 1 ≠ n then some { q with endPos := q.endPos + 1 }
  else
    match q.spareChunk with
    | some sc => some ({ q with spareChunk := none }.appendChunk sc)
    | none =>
      if (q.chunks fresh).isSome then none
      else some
        ({ q with chunks := update q.chunks fresh (some {}) }.appendChunk fresh)

def prevOf (c : Nat) : Option Nat := (q.chunks c).bind fun k => k.prev

def nextOf (c : Nat) : Option Nat := (q.chunks c).bind fun k => k.next

def unpushBack : YQueue n α :=
  if q.backPos ≠ 0 then { q with backPos := q.backPos - 1 }
  else { q with backPos := n - 1, backChunk := q.backChunk.bind q.prevOf }

def unpushEnd : YQueue n α :=
  if q.endPos ≠ 0 then { q with endPos := q.endPos - 1 }
  else
    match q.prevOf q.endChunk with
    | none => { q with crashed := true }
    | some e =>
      let q : YQueue n α := { q with endPos := n - 1, endChunk := e }
      (q.xfree (q.nextOf e)).setNext e none

def unpush : YQueue n α := q.unpushBack.unpushEnd

def pop : YQueue n α :=
  if q.beginPos + 1 ≠ n then { q with beginPos := q.beginPos + 1 }
  else
    match q.nextOf q.beginChunk with
    | none => { q with crashed := true }
    | some c =>
      let o := q.beginChunk
      let q : YQueue n α := { q with beginChunk := c }
      let q := q.setPrev c none
      let q : YQueue n α := { q with beginPos := 0 }
      { q with spareChunk := some o }.xfree q.spareChunk

def get (a : Option Nat × Nat) : Option α :=
  (a.1.bind q.chunks).bind fun k => k.values a.2

def set (a : Option Nat × Nat) (value : α) : YQueue n α :=
  match a.1 with
  | none => { q with crashed := true }
  | some c => q.edit c fun k => { k with values := update k.values a.2 (some value) }

end YQueue

instance {n : Nat} {α : Type} : Queue (YQueue n α) (Option Nat × Nat) α where
  front q := (some q.beginChunk, q.beginPos)
  back q := (q.backChunk, q.backPos)
  get q a := q.get a
  set q a value := q.set a value
  push q fresh := q.push fresh
  unpush q := q.unpush
  pop q := q.pop

end Uzmq.YQueues
