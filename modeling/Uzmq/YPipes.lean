import Uzmq.Runs

/-!
# The lock-free pipe

`ypipe_t` with one thread that writes, rolls back and flushes and one that checks
for items and reads them. Every access to the shared pointer `c` is a step of its
own, and so is everything the threads do between such accesses, so that all
interleavings are covered. `rollback` is the loop of `pipe_t::rollback`.

The pipe is generic in the queue under it, of which it uses addresses of elements:
`Queue` has the operations of `yqueue_t`, the number given to `push` is what
`malloc` returns if a new chunk is needed. `Positions` is the queue whose elements
have consecutive numbers as addresses.

The fields from `complete` on are recordings that the code does not have: the parts
of complete messages in writing order, the parts of the unfinished message, the
parts flushed and read so far, whether the last unsuccessful check was not followed
by a flush that wakes the reader up, and the last results of `rollback` and `flush`.
-/

namespace Uzmq.YPipes

class Queue (Q : Type) (Addr : outParam Type) (α : outParam Type) where
  front : Q → Addr
  back : Q → Addr
  get : Q → Addr → Option α
  set : Q → Addr → α → Q
  push : Q → Nat → Option Q
  unpush : Q → Q
  pop : Q → Q

/-- Where the writing thread is. -/
inductive WriterPc (α : Type) where
  | idle
  /-- `write`: before the value is stored. -/
  | storing (value : α) (incomplete : Bool)
  | pushing (value : α) (incomplete : Bool)
  /-- `write` of the last part: before `f` is moved. -/
  | completing (value : α)
  /-- `rollback`: before `f` is compared with the back. -/
  | comparing (removed : List α)
  | unpushing (removed : List α)
  | taking (removed : List α)
  /-- `flush`: before `w` is compared with `f`. -/
  | flushing
  | swapping
  /-- The reader is asleep: before `c` is set. -/
  | waking (asleep : Bool)
  | advancing (result asleep : Bool)
  deriving DecidableEq

/-- Where the reading thread is; `reading` tells `read` from `check_read`. -/
inductive ReaderPc (α : Type) where
  | idle
  | checking (reading : Bool)
  | prefetching (reading : Bool)
  | testing (reading : Bool)
  | fetching
  | popping (value : α)
  deriving DecidableEq

structure YPipe (Q Addr α : Type) where
  queue : Q
  w : Addr
  f : Addr
  r : Option Addr
  c : Option Addr
  writer : WriterPc α := .idle
  reader : ReaderPc α := .idle
  failed : Bool := false
  complete : List α := []
  unfinished : List α := []
  sent : List α := []
  received : List α := []
  asleep : Bool := false
  lastRollback : Option (List α × List α) := none
  lastFlush : Option (Bool × Bool) := none

section Steps
variable {Q Addr α : Type} [DecidableEq Addr] [Queue Q Addr α]

/-- The terminator has been pushed into `queue`. -/
def YPipe.new (queue : Q) : YPipe Q Addr α where
  queue := queue
  w := Queue.back queue
  f := Queue.back queue
  r := some (Queue.back queue)
  c := some (Queue.back queue)

def writerStep (s : YPipe Q Addr α) (chunk : Nat) : Option (YPipe Q Addr α) :=
  match s.writer with
  | .idle => none
  | .storing value incomplete =>
    some { s with
      queue := Queue.set s.queue (Queue.back s.queue) value
      writer := .pushing value incomplete }
  | .pushing value incomplete =>
    match Queue.push s.queue chunk with
    | none => none
    | some queue =>
      if incomplete then
        some { s with
          queue := queue, writer := .idle, unfinished := s.unfinished ++ [value] }
      else some { s with queue := queue, writer := .completing value }
  | .completing value =>
    some { s with
      f := Queue.back s.queue, writer := .idle
      complete := s.complete ++ s.unfinished ++ [value], unfinished := [] }
  | .comparing removed =>
    if s.f = Queue.back s.queue then
      some { s with
        writer := .idle, lastRollback := some (s.unfinished, removed), unfinished := [] }
    else some { s with writer := .unpushing removed }
  | .unpushing removed =>
    some { s with queue := Queue.unpush s.queue, writer := .taking removed }
  | .taking removed =>
    match Queue.get s.queue (Queue.back s.queue) with
    | none => some { s with failed := true }
    | some value => some { s with writer := .comparing (removed ++ [value]) }
  | .flushing =>
    if s.w = s.f then some { s with writer := .idle } else some { s with writer := .swapping }
  | .swapping =>
    if s.c = some s.w then
      some { s with c := some s.f, sent := s.complete, writer := .advancing true s.asleep }
    else some { s with writer := .waking s.asleep }
  | .waking asleep =>
    some { s with
      c := some s.f, sent := s.complete, asleep := false, writer := .advancing false asleep }
  | .advancing result asleep =>
    some { s with w := s.f, writer := .idle, lastFlush := some (result, asleep) }

def found (s : YPipe Q Addr α) (reading : Bool) : YPipe Q Addr α :=
  { s with reader := if reading then .fetching else .idle }

def readerStep (s : YPipe Q Addr α) : Option (YPipe Q Addr α) :=
  match s.reader with
  | .idle => none
  | .checking reading =>
    if some (Queue.front s.queue) ≠ s.r ∧ s.r ≠ none then some (found s reading)
    else some { s with reader := .prefetching reading }
  | .prefetching reading =>
    -- The compare-and-swap returns the value before it.
    let old := s.c
    some { s with
      c := if old = some (Queue.front s.queue) then none else old
      r := old
      reader := .testing reading
      asleep := s.asleep || decide (old = some (Queue.front s.queue) ∨ old = none) }
  | .testing reading =>
    if some (Queue.front s.queue) = s.r ∨ s.r = none then some { s with reader := .idle }
    else some (found s reading)
  | .fetching =>
    match Queue.get s.queue (Queue.front s.queue) with
    | none => some { s with failed := true }
    | some value => some { s with reader := .popping value }
  | .popping value =>
    some { s with
      queue := Queue.pop s.queue, reader := .idle, received := s.received ++ [value] }

inductive Input (α : Type) where
  | write (value : α) (incomplete : Bool)
  | rollback
  | flush
  | checkRead
  | read
  /-- The next step of the writing thread. -/
  | writer (chunk : Nat)
  | reader

/-- A thread starts a call only after it has finished the one before. -/
def step (s : YPipe Q Addr α) (i : Input α) : Option (YPipe Q Addr α) :=
  if s.failed then none
  else
    match i with
    | .write value incomplete =>
      match s.writer with
      | .idle => some { s with writer := .storing value incomplete }
      | _ => none
    | .rollback =>
      match s.writer with
      | .idle => some { s with writer := .comparing [] }
      | _ => none
    | .flush =>
      match s.writer with
      | .idle => some { s with writer := .flushing }
      | _ => none
    | .checkRead =>
      match s.reader with
      | .idle => some { s with reader := .checking false }
      | _ => none
    | .read =>
      match s.reader with
      | .idle => some { s with reader := .checking true }
      | _ => none
    | .writer chunk => writerStep s chunk
    | .reader => readerStep s

end Steps

/-- Elements are numbered in the order in which they are pushed. -/
structure Positions (α : Type) where
  slots : Nat → Option α
  front : Nat
  back : Nat

instance {α : Type} : Queue (Positions α) Nat α where
  front q := q.front
  back q := q.back
  get q i := q.slots i
  set q i value := { q with slots := Function.update q.slots i (some value) }
  push q _ := some { q with back := q.back + 1 }
  unpush q := { q with back := q.back - 1 }
  pop q := { q with front := q.front + 1 }

/-- The queue after the constructor has pushed the terminator. -/
def Positions.new {α : Type} : Positions α := ⟨fun _ => none, 0, 0⟩

end Uzmq.YPipes
