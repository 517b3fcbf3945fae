import Uzmq.Message
import Uzmq.Rotas
import Uzmq.Runs

/-!
# Fair queueing

`fq_t` over pipes that make whole messages available. Of a pipe there are the items its reader
can see, the flag `in_active`, and whether the state of the pipe permits reading. Credentials
are skipped, and a delimiter ends the pipe. The saved credential of a pipe is left out.

The pipes that are attached are recorded, what each of them has made available, what was returned
from it, and the pipe a message is being read from.

If a pipe goes away in the middle of a message, `current` can be set to the first pipe although
the message is read from another one.
-/

namespace Uzmq.FairQueues

open Function
open Message

variable {Pipe : Type} [DecidableEq Pipe]

/-- The reading end of a pipe; `readable` says that the state is `active` or
`waiting_for_delimiter`. -/
structure Source where
  queue : List Msg := []
  inActive : Bool := true
  readable : Bool := true

namespace Source

def read (s : Source) : Option Msg × Source :=
  if !s.inActive || !s.readable then (none, s)
  else
    match s.queue.dropWhile fun m => m.flags.credential with
    | [] => (none, { s with queue := [], inActive := false })
    | m :: later =>
      if m.isDelimiter then (none, { s with queue := later, readable := false })
      else (some m, { s with queue := later })

/-- The answer is given as an option. -/
def checkRead (s : Source) : Option Unit × Source :=
  if !s.inActive || !s.readable then (none, s)
  else
    match s.queue with
    | [] => (none, { s with inActive := false })
    | m :: later =>
      if m.isDelimiter then (none, { s with queue := later, readable := false })
      else (some (), s)

end Source

structure Fq (Pipe : Type) where
  rota : Rota Pipe := {}
  lastIn : Option Pipe := none
  more : Bool := false

namespace Fq

def attach (f : Fq Pipe) (pipe : Pipe) : Option (Fq Pipe) :=
  (f.rota.attach pipe).map fun rota => { f with rota := rota }

def pipeTerminated (f : Fq Pipe) (pipe : Pipe) : Option (Fq Pipe) :=
  (f.rota.remove pipe).map fun rota =>
    { f with rota := rota, lastIn := if f.lastIn = some pipe then none else f.lastIn }

def activated (f : Fq Pipe) (pipe : Pipe) : Option (Fq Pipe) :=
  (f.rota.activate pipe).map fun rota => { f with rota := rota }

def onPipe {β : Type} (op : Source → Option β × Source) (pipe : Pipe) (sources : Pipe → Source) :
    Option β × (Pipe → Source) :=
  ((op (sources pipe)).1, update sources pipe (op (sources pipe)).2)

/-- The queue and the pipes after a call of `recvpipe`, and what it has returned. -/
structure Received (Pipe : Type) where
  fq : Fq Pipe
  sources : Pipe → Source
  part : Option (Pipe × Msg)

/-- After the last part of a message it is the turn of the next pipe. -/
def fetched (f : Fq Pipe) (rota : Rota Pipe) (pipe : Pipe) (m : Msg) : Fq Pipe :=
  if m.flags.more then { f with rota := rota, more := true }
  else { rota := rota.advance, lastIn := some pipe, more := false }

/-- No result stands for the failed assertion that no message is cut. -/
def recvpipe (f : Fq Pipe) (sources : Pipe → Source) : Option (Received Pipe) :=
  match f.rota.seek (onPipe Source.read) f.more sources with
  | none => none
  | some q =>
    if q.stopped then none
    else
      match q.found with
      | none => some { fq := { f with rota := q.rota }, sources := q.state, part := none }
      | some (pipe, m) =>
        some { fq := f.fetched q.rota pipe m, sources := q.state, part := some (pipe, m) }

def hasIn (f : Fq Pipe) (sources : Pipe → Source) : Option (Fq Pipe × (Pipe → Source) × Bool) :=
  if f.more then some (f, sources, true)
  else
    (f.rota.seek (onPipe Source.checkRead) false sources).map fun q =>
      ({ f with rota := q.rota }, q.state, q.found.isSome)

end Fq

/-- Whole messages. After the first argument or a credential a message goes on; delimiters stand
between messages. -/
def Whole : Bool → List Msg → Prop
  | continued, [] => continued = false
  | continued, m :: later =>
    if m.flags.credential then m.isDelimiter = false ∧ Whole true later
    else if m.isDelimiter then continued = false ∧ Whole false later
    else Whole m.flags.more later

instance decidableWhole : (continued : Bool) → (queue : List Msg) →
    Decidable (Whole continued queue)
  | continued, [] => inferInstanceAs (Decidable (continued = false))
  | continued, m :: later => by
    have := decidableWhole true later
    have := decidableWhole false later
    have := decidableWhole m.flags.more later
    unfold Whole
    infer_instance

/-- The parts of messages among the items of a pipe. -/
def parts (queue : List Msg) : List Msg :=
  queue.filter fun m => !m.flags.credential && !m.isDelimiter

structure System (Pipe : Type) where
  fq : Fq Pipe := {}
  sources : Pipe → Source := fun _ => {}
  attached : List Pipe := []
  reading : Option Pipe := none
  given : Pipe → List Msg := fun _ => []
  got : Pipe → List Msg := fun _ => []

inductive Input (Pipe : Type) where
  /-- A pipe in which there is something already. -/
  | attach (pipe : Pipe) (items : List Msg)
  /-- The peer flushes the pipe. -/
  | deliver (pipe : Pipe) (items : List Msg)
  /-- The pipe leaves the states in which it can be read. -/
  | close (pipe : Pipe)
  /-- `process_activate_read` -/
  | activateRead (pipe : Pipe)
  | terminated (pipe : Pipe)
  | recv
  | hasIn

def System.received (s : System Pipe) (r : Fq.Received Pipe) : System Pipe :=
  match r.part with
  | none => { s with fq := r.fq, sources := r.sources }
  | some (pipe, m) =>
    { s with
      fq := r.fq, sources := r.sources
      reading := if m.flags.more then some pipe else none
      got := update s.got pipe (s.got pipe ++ [m]) }

def step (s : System Pipe) : Input Pipe → Option (System Pipe)
  | .attach pipe items =>
    (s.fq.attach pipe).map fun fq =>
      { s with
        fq := fq
        attached := pipe :: s.attached
        sources := update s.sources pipe { queue := items }
        given := update s.given pipe (parts items)
        got := update s.got pipe [] }
  | .deliver pipe items =>
    some { s with
      sources := update s.sources pipe
        { s.sources pipe with queue := (s.sources pipe).queue ++ items }
      given := update s.given pipe (s.given pipe ++ parts items) }
  | .close pipe =>
    some { s with
      sources := update s.sources pipe { s.sources pipe with readable := false } }
  | .activateRead pipe =>
    if (s.sources pipe).inActive = false ∧ (s.sources pipe).readable = true then
      (s.fq.activated pipe).map fun fq =>
        { s with
          fq := fq
          sources := update s.sources pipe { s.sources pipe with inActive := true } }
    else some s
  | .terminated pipe =>
    (s.fq.pipeTerminated pipe).map fun fq =>
      { s with fq := fq, attached := s.attached.filter fun q => q ≠ pipe }
  | .recv => (s.fq.recvpipe s.sources).map s.received
  | .hasIn =>
    (s.fq.hasIn s.sources).map fun r => { s with fq := r.1, sources := r.2.1 }

/-- In the middle of a message that is read from the last active pipe, a pipe that goes away is
not active or it is the first one. -/
def Safe (f : Fq Pipe) (pipe : Pipe) : Prop :=
  f.more = true → f.rota.slots.index pipe < f.rota.active →
    f.rota.current + 1 = f.rota.active → f.rota.slots.index pipe = 0
  deriving Decidable

/-- Pipes make whole messages available, and do not go away before the message that is being
read has been read. -/
def Guard (s : System Pipe) : Input Pipe → Prop
  | .attach pipe items => pipe ∉ s.attached ∧ Whole false items
  | .deliver pipe items => pipe ∈ s.attached ∧ Whole false items
  | .close pipe => s.reading ≠ some pipe
  | .activateRead pipe => pipe ∈ s.attached
  | .terminated pipe => pipe ∈ s.attached ∧ s.reading ≠ some pipe ∧ Safe s.fq pipe
  | .recv => True
  | .hasIn => True

instance (s : System Pipe) (i : Input Pipe) : Decidable (Guard s i) := by
  cases i <;> unfold Guard <;> infer_instance

end Uzmq.FairQueues
