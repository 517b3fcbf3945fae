import Uzmq.Channel
import Uzmq.Message
import Uzmq.Rotas
import Uzmq.Runs

/-!
# Load balancing

`lb_t` over pipes whose writing ends have the flag `out_active`, a state that is `active` or not,
and a queue. Parts are stored with the number of the message they belong to, which the code does
not know. Whether a pipe has room is given with each call.

The parts of each message that `sendpipe` has accepted are recorded, and whether the caller is
between two messages or within one, or was refused a part other than the first one.

There are two ways to flush a message without its first parts. If a part is refused in the middle
of a message, the parts before it are taken back, and what the caller sends next is the start of
a message. If a pipe goes away in the middle of a message, `current` can be set to the first pipe
although the message is written to another one.
-/

namespace Uzmq.LoadBalancers

open Function
open Message
open Rota (Sought)

variable {Pipe : Type} [DecidableEq Pipe]

/-- A part with the number of its message. -/
abbrev Part := Nat × Msg

/-- The writing end of a pipe; `alive` says that the state is `active`. -/
structure Sink where
  queue : Channel Part := {}
  outActive : Bool := true
  alive : Bool := true

namespace Sink

/-- The answer is given as an option. -/
def checkWrite (s : Sink) (room : Bool) : Option Unit × Sink :=
  if !s.outActive || !s.alive then (none, s)
  else if !room then (none, { s with outActive := false })
  else (some (), s)

def write (s : Sink) (room : Bool) (part : Part) : Option Unit × Sink :=
  match s.checkWrite room with
  | (none, s) => (none, s)
  | (some _, s) => (some (), { s with queue := s.queue.write part part.2.flags.more })

/-- No result stands for the failed assertion that the parts taken back are to be continued. -/
def rollback (s : Sink) : Option Sink :=
  if s.queue.unfinished.all fun part => part.2.flags.more then
    some { s with queue := { s.queue with unfinished := [] } }
  else none

def flush (s : Sink) : Sink := { s with queue := s.queue.flush }

end Sink

structure Lb (Pipe : Type) where
  rota : Rota Pipe := {}
  more : Bool := false
  dropping : Bool := false

namespace Lb

def activated (l : Lb Pipe) (pipe : Pipe) : Option (Lb Pipe) :=
  (l.rota.activate pipe).map fun rota => { l with rota := rota }

def attach (l : Lb Pipe) (pipe : Pipe) : Option (Lb Pipe) :=
  match l.rota.append pipe with
  | none => none
  | some rota => activated { l with rota := rota } pipe

/-- The rest of a message is dropped if its pipe goes away. -/
def pipeTerminated (l : Lb Pipe) (pipe : Pipe) : Option (Lb Pipe) :=
  (l.rota.remove pipe).map fun rota =>
    { l with
      rota := rota
      dropping := l.dropping || (decide (l.rota.slots.index pipe = l.rota.current) && l.more) }

/-- The current pipe is deactivated in `sendpipe`. -/
def skip (r : Rota Pipe) : Option (Rota Pipe) :=
  if r.active = 0 then none
  else if r.current < r.active - 1 then
    (r.slots.swap r.current (r.active - 1)).map fun slots =>
      { r with slots := slots, active := r.active - 1 }
  else some { r with active := r.active - 1, current := 0 }

def onPipe (op : Bool → Sink → Option Unit × Sink) (room : Pipe → Bool) (pipe : Pipe)
    (sinks : Pipe → Sink) : Option Unit × (Pipe → Sink) :=
  ((op (room pipe) (sinks pipe)).1, update sinks pipe (op (room pipe) (sinks pipe)).2)

/-- The loop of `sendpipe`; it is stopped by a failed write in the middle of a message. -/
def sendLoop (room : Pipe → Bool) (part : Part) (more : Bool) :
    Nat → Rota Pipe → (Pipe → Sink) → Option (Sought Pipe Unit (Pipe → Sink))
  | 0, r, sinks => some { rota := r, state := sinks }
  | left + 1, r, sinks =>
    match r.here with
    | none => none
    | some pipe =>
      match onPipe (fun room s => s.write room part) room pipe sinks with
      | (some b, sinks) => some { rota := r, state := sinks, found := some (pipe, b) }
      | (none, sinks) =>
        if more then some { rota := r, state := sinks, stopped := true }
        else
          match skip r with
          | none => none
          | some r => sendLoop room part more left r sinks

/-- The load balancer and the pipes after a call of `sendpipe`, and whether it has accepted the
part. -/
structure Sent (Pipe : Type) where
  lb : Lb Pipe
  sinks : Pipe → Sink
  accepted : Bool

/-- After the last part of a message it is flushed, and it is the turn of the next pipe. -/
def written (l : Lb Pipe) (r : Rota Pipe) (sinks : Pipe → Sink) (pipe : Pipe) (m : Msg) :
    Sent Pipe :=
  if m.flags.more then
    { lb := { l with rota := r, more := true }, sinks := sinks, accepted := true }
  else
    { lb := { l with
        rota := { r with current := if r.active ≤ r.current + 1 then 0 else r.current + 1 }
        more := false }
      sinks := update sinks pipe (sinks pipe).flush
      accepted := true }

def sendpipe (l : Lb Pipe) (sinks : Pipe → Sink) (room : Pipe → Bool) (part : Part) :
    Option (Sent Pipe) :=
  if l.dropping then
    some {
      lb := { l with more := part.2.flags.more, dropping := part.2.flags.more }
      sinks := sinks, accepted := true }
  else
    match sendLoop room part l.more l.rota.active l.rota sinks with
    | none => none
    | some q =>
      if q.stopped then
        match q.rota.here with
        | none => none
        | some pipe =>
          (q.state pipe).rollback.map fun sink =>
            { lb := { l with rota := q.rota, more := false }
              sinks := update q.state pipe sink
              accepted := false }
      else
        match q.found with
        | none => some { lb := { l with rota := q.rota }, sinks := q.state, accepted := false }
        | some (pipe, _) => some (l.written q.rota q.state pipe part.2)

def hasOut (l : Lb Pipe) (sinks : Pipe → Sink) (room : Pipe → Bool) :
    Option (Lb Pipe × (Pipe → Sink) × Bool) :=
  if l.more then some (l, sinks, true)
  else
    (l.rota.seek (onPipe (fun room s => s.checkWrite room) room) false sinks).map fun q =>
      ({ l with rota := q.rota }, q.state, q.found.isSome)

end Lb

/-- Where the caller is: the last part accepted was the last one of a message or there is none;
it is to be continued; the caller was refused its continuation. -/
inductive Progress where
  | between
  | within
  | refused
  deriving DecidableEq

structure System (Pipe : Type) where
  lb : Lb Pipe := {}
  sinks : Pipe → Sink := fun _ => {}
  attached : List Pipe := []
  /-- The number of messages of which the first part was accepted. -/
  started : Nat := 0
  messages : Nat → List Msg := fun _ => []
  progress : Progress := .between

/-- The parts of a message with its number. -/
def System.parts (s : System Pipe) (i : Nat) : List Part := (s.messages i).map (Prod.mk i)

inductive Input (Pipe : Type) where
  | attach (pipe : Pipe)
  /-- The pipe starts to terminate, in some cases with a rollback. -/
  | close (pipe : Pipe) (rolledBack : Bool)
  /-- `process_activate_write` -/
  | activateWrite (pipe : Pipe)
  | terminated (pipe : Pipe)
  /-- The first part of a message, or the next part of the one before. -/
  | send (first : Bool) (m : Msg) (room : Pipe → Bool)
  | hasOut (room : Pipe → Bool)

/-- The number of the message a part belongs to. -/
def System.number (s : System Pipe) (first : Bool) : Nat :=
  if first then s.started else s.started - 1

def System.sent (s : System Pipe) (first : Bool) (m : Msg) (r : Lb.Sent Pipe) : System Pipe :=
  if r.accepted then
    { s with
      lb := r.lb, sinks := r.sinks
      started := if first then s.started + 1 else s.started
      messages := update s.messages (s.number first)
        (if first then [m] else s.messages (s.number first) ++ [m])
      progress := if m.flags.more then .within else .between }
  else
    { s with
      lb := r.lb, sinks := r.sinks
      progress := if first then .between else .refused }

def step (s : System Pipe) : Input Pipe → Option (System Pipe)
  | .attach pipe =>
    (s.lb.attach pipe).map fun lb =>
      { s with
        lb := lb, attached := pipe :: s.attached
        sinks := update s.sinks pipe {} }
  | .close pipe rolledBack =>
    (if rolledBack then (s.sinks pipe).rollback else some (s.sinks pipe)).map fun sink =>
      { s with sinks := update s.sinks pipe { sink with alive := false } }
  | .activateWrite pipe =>
    if (s.sinks pipe).outActive = false ∧ (s.sinks pipe).alive = true then
      (s.lb.activated pipe).map fun lb =>
        { s with
          lb := lb
          sinks := update s.sinks pipe { s.sinks pipe with outActive := true } }
    else some s
  | .terminated pipe =>
    (s.lb.pipeTerminated pipe).map fun lb =>
      { s with lb := lb, attached := s.attached.filter fun q => q ≠ pipe }
  | .send first m room =>
    (s.lb.sendpipe s.sinks room (s.number first, m)).map (s.sent first m)
  | .hasOut room =>
    (s.lb.hasOut s.sinks room).map fun r => { s with lb := r.1, sinks := r.2.1 }

/-- In the middle of a message that is written to the last active pipe, a pipe that goes away is
that pipe, is not active, or is the first one. -/
def Safe (l : Lb Pipe) (pipe : Pipe) : Prop :=
  l.more = true → l.dropping = false → l.rota.slots.index pipe < l.rota.active →
    l.rota.current + 1 = l.rota.active →
      l.rota.slots.index pipe = 0 ∨ l.rota.slots.index pipe = l.rota.current
  deriving Decidable

/-- A caller that was refused a part starts the next message. A pipe does not get full in the
middle of a message, since messages are counted when the last part is written. -/
def Guard (s : System Pipe) : Input Pipe → Prop
  | .attach pipe => pipe ∉ s.attached
  | .close _ _ => True
  | .activateWrite pipe => pipe ∈ s.attached
  | .terminated pipe => pipe ∈ s.attached ∧ Safe s.lb pipe
  | .send first _ room =>
    (first = true ↔ s.progress ≠ .within) ∧
      ∀ pipe ∈ s.attached, (s.sinks pipe).queue.unfinished ≠ [] → room pipe = true
  | .hasOut _ => True

instance (s : System Pipe) (i : Input Pipe) : Decidable (Guard s i) := by
  cases i <;> unfold Guard <;> infer_instance

end Uzmq.LoadBalancers
