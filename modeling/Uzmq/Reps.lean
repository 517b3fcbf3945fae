import Uzmq.RouterTable

/-!
# Reply sockets

`rep_t` over a router. A call of `xrecv` or `xhas_in` is made in turns, and nothing else happens
until it returns: in a turn the router is asked for a part, and a part of the envelope goes back to
the router at once.

The request in progress is recorded with its peer and the parts so far, and then the reply and
whether the pipe of the peer could be written to all the time. A request starts when the routing id
is pushed. The requests read from each pipe are recorded, and the exchanges that the user has
completed. Pipes are told apart even after they are gone. The options of the router, `MANDATORY`,
`RAW`, `HANDOVER` and `PROBE`, stay at their defaults.
-/

namespace Uzmq.Reps

open Message
open Routers (Fetched Router)

variable {Pipe : Type} [DecidableEq Pipe]

inductive Call where
  | recv
  | hasIn
  deriving DecidableEq, Repr

/-- `call` is the call in progress. -/
structure Rep (Pipe : Type) where
  router : Router Pipe
  sendingReply : Bool := false
  requestBegins : Bool := true
  call : Option Call := none

namespace Rep

variable (s : Rep Pipe)

/-- A part of the envelope is pushed; without a delimiter the request is dropped. -/
def label (m : Msg) : Option (Rep Pipe) :=
  if m.flags.more then
    match s.router.xsend m with
    | some (r, .ok) => some { s with router := r, requestBegins := !m.data.isEmpty }
    | _ => none
  else some { s with router := s.router.rollback }

def body (m : Msg) : Rep Pipe :=
  { s with sendingReply := !m.flags.more, requestBegins := !m.flags.more, call := none }

/-- A turn of `xrecv`. -/
def recvTurn : Option (Rep Pipe × Fetched) :=
  match s.router.fetch with
  | none => none
  | some (r, .empty) => some ({ s with router := r, call := none }, .empty)
  | some (r, .dropped) => some ({ s with router := r }, .dropped)
  | some (r, .part m) =>
    if s.requestBegins then ({ s with router := r }.label m).map (·, .part m)
    else some ({ s with router := r }.body m, .part m)

/-- A turn of `xhas_in`. -/
def hasInTurn : Option (Rep Pipe) :=
  match s.router.look with
  | none => none
  | some (r, none) => some { s with router := r }
  | some (r, some _) => some { s with router := r, call := none }

/-- The calls of the user start; in the middle of a reply they fail. -/
def start (call : Call) : Rep Pipe :=
  if s.sendingReply then s else { s with call := some call }

def xsend (m : Msg) : Option (Rep Pipe) :=
  if !s.sendingReply then some s
  else
    match s.router.xsend m with
    | none => none
    | some (r, .ok) => some { s with router := r, sendingReply := m.flags.more }
    | some (r, _) => some { s with router := r }

end Rep

structure Exchange (Pipe : Type) where
  peer : Pipe
  request : List Msg
  reply : List Msg
  writable : Bool
  deriving DecidableEq

/-- The parts up to the first empty one. -/
def envelope : List Msg → List Msg
  | [] => []
  | m :: later => if m.data = [] then [m] else m :: envelope later

/-- The message that is sent. -/
def Exchange.message (e : Exchange Pipe) : List Msg := envelope e.request ++ e.reply

structure System (Pipe : Type) where
  rep : Rep Pipe
  known : List Pipe := []
  request : Option (Pipe × List Msg) := none
  reply : List Msg := []
  writable : Bool := false
  taken : Pipe → List (List Msg) := fun _ => []
  exchanges : List (Exchange Pipe) := []

namespace System

variable (s : System Pipe)

/-- The pipe of the request in progress is looked at. -/
def observe : System Pipe :=
  match s.request with
  | none => s
  | some (p, _) =>
    { s with writable := s.writable && decide (s.rep.router.sinks p).Writable }

def withRouter (r : Option (Router Pipe)) : Option (System Pipe) :=
  r.map fun router => { s with rep := { s.rep with router := router } }.observe

/-- A part has come from the router. -/
def record (rep : Rep Pipe) (m : Msg) : System Pipe :=
  match s.request with
  | none =>
    { s with
      rep := rep
      request := rep.router.currentIn.map (·, [])
      writable := true }.observe
  | some (p, frames) =>
    if m.flags.more then { s with rep := rep, request := some (p, frames ++ [m]) }.observe
    else
      { s with
        rep := rep
        -- A request that has no delimiter is over.
        request := if s.rep.requestBegins then none else some (p, frames ++ [m])
        taken := Function.update s.taken p (s.taken p ++ [frames ++ [m]]) }.observe

def turn : Option (System Pipe) :=
  match s.rep.call with
  | none => none
  | some .hasIn => s.rep.hasInTurn.map fun rep => { s with rep := rep }
  | some .recv =>
    match s.rep.recvTurn with
    | none => none
    | some (rep, .part m) => some (s.record rep m)
    | some (rep, _) => some { s with rep := rep }

/-- A part of the reply; nothing happens if there is no request to reply to. -/
def send (m : Msg) : Option (System Pipe) :=
  match s.rep.xsend m with
  | none => none
  | some rep =>
    if s.rep.sendingReply then
      if rep.sendingReply then some { s with rep := rep, reply := s.reply ++ [m] }.observe
      else
        some { s with
          rep := rep
          request := none
          reply := []
          exchanges := s.exchanges ++ (s.request.map fun request =>
            { peer := request.1, request := request.2, reply := s.reply ++ [m]
              writable := s.writable }).toList }
    else some s

end System

inductive Input (Pipe : Type) where
  | attach (pipe : Pipe) (items : List Msg)
  | deliver (pipe : Pipe) (items : List Msg)
  | close (pipe : Pipe) (reads takenBack : Bool)
  | setRoom (pipe : Pipe) (room : Bool)
  | activateRead (pipe : Pipe)
  | activateWrite (pipe : Pipe)
  | terminated (pipe : Pipe)
  | start (call : Call)
  | turn
  | send (m : Msg)

/-- Only between the calls. -/
def System.between (s : System Pipe) (t : Option (System Pipe)) : Option (System Pipe) :=
  if s.rep.call.isSome then none else t

def step (s : System Pipe) : Input Pipe → Option (System Pipe)
  | .attach pipe items =>
    s.between ({ s with known := pipe :: s.known }.withRouter (s.rep.router.connect pipe items))
  | .deliver pipe items => s.between (s.withRouter (s.rep.router.deliver pipe items))
  | .close pipe reads takenBack =>
    s.between (s.withRouter (some (s.rep.router.close pipe reads takenBack)))
  | .setRoom pipe room => s.between (s.withRouter (some (s.rep.router.setRoom pipe room)))
  | .activateRead pipe => s.between (s.withRouter (s.rep.router.activateRead pipe))
  | .activateWrite pipe => s.between (s.withRouter (s.rep.router.activateWrite pipe))
  | .terminated pipe => s.between (s.withRouter (s.rep.router.xpipeTerminated pipe))
  | .start call => s.between (some { s with rep := s.rep.start call })
  | .turn => s.turn
  | .send m => s.between (s.send m)

section Requests

/-- Routing ids stand between messages. After the first argument a message goes on. -/
def Labelled : Bool → List Msg → Prop
  | _, [] => True
  | continued, m :: later =>
    if m.flags.routingId then continued = false ∧ Labelled false later
    else Labelled m.flags.more later

instance decidableLabelled : (continued : Bool) → (frames : List Msg) →
    Decidable (Labelled continued frames)
  | _, [] => inferInstanceAs (Decidable True)
  | continued, m :: later => by
    have := decidableLabelled false later
    have := decidableLabelled m.flags.more later
    unfold Labelled
    infer_instance

/-- What a peer makes available: whole messages, and routing ids between them. -/
def Batch (items : List Msg) : Prop :=
  FairQueues.Whole false items ∧ Labelled false (FairQueues.parts items)
  deriving Decidable

/-- All parts of a message. -/
def Complete (frames : List Msg) : Prop :=
  ∃ init last, frames = init ++ [last] ∧ (∀ m ∈ init, m.flags.more = true) ∧ last.flags.more = false

/-- There is a delimiter before the last part. -/
def WellFormed (frames : List Msg) : Prop := ∃ m ∈ frames.dropLast, m.data = []

end Requests

/-- Pipes are attached once, commands come to attached pipes, peers make whole messages available,
and a pipe is gone after it could be neither read nor written. -/
def Allowed (s : System Pipe) : Input Pipe → Prop
  | .attach pipe items => pipe ∉ s.known ∧ Batch items
  | .deliver pipe items => s.rep.router.Has pipe ∧ Batch items
  | .close pipe _ _ => s.rep.router.Has pipe
  | .setRoom pipe _ => s.rep.router.Has pipe
  | .activateRead pipe => s.rep.router.Has pipe
  | .activateWrite pipe => s.rep.router.Has pipe
  | .terminated pipe =>
    s.rep.router.Has pipe ∧ (s.rep.router.sinks pipe).alive = false ∧
      (s.rep.router.queues.sources pipe).readable = false
  | _ => True

/-- The router is about to return the last part of a request that has no delimiter, and its pipe
was not found or could not be written to. -/
def Stuck (s : System Pipe) : Prop :=
  match s.rep.router.fetch with
  | some (_, .part m) =>
    m.flags.more = false ∧ s.rep.requestBegins = true ∧ s.rep.router.currentOut = none
  | _ => False

instance (s : System Pipe) : Decidable (Stuck s) := by
  unfold Stuck
  split <;> infer_instance

/-- Requests without a delimiter come from pipes that can be written to, a pipe does not go away in
the middle of its request, and fair queueing is safe. -/
def Guard (s : System Pipe) (input : Input Pipe) : Prop :=
  Allowed s input ∧
    match input with
    | .close pipe reads _ => reads = true ∨ s.rep.router.queues.reading ≠ some pipe
    | .terminated pipe => FairQueues.Safe s.rep.router.queues.fq pipe
    | .turn => s.rep.call = some .recv → ¬ Stuck s
    | _ => True

instance (s : System Pipe) (input : Input Pipe) : Decidable (Allowed s input) := by
  cases input <;> unfold Allowed <;> infer_instance

instance (s : System Pipe) (input : Input Pipe) : Decidable (Guard s input) := by
  cases input <;> unfold Guard <;> infer_instance

def Initial (s : System Pipe) : Prop :=
  ∃ n, s = { rep := { router := { nextIntegralRoutingId := n } } }

def System.exchangesOf (s : System Pipe) (p : Pipe) : List (Exchange Pipe) :=
  s.exchanges.filter fun e => e.peer = p

/-- What was flushed to a peer are envelopes of its requests and the replies to them, each at most
once, and all those whose pipe could be written to; and requests are what the peer has sent. -/
structure Answered (s : System Pipe) : Prop where
  flushed : ∀ p, ∃ delivered : List (Exchange Pipe),
    (s.rep.router.sinks p).queue.flushed = delivered.flatMap Exchange.message ∧
      delivered.Sublist (s.exchangesOf p) ∧
      ((s.exchangesOf p).filter (·.writable)).Sublist delivered
  wellFormed : ∀ e ∈ s.exchanges, WellFormed e.request
  requests : ∀ p, ((s.exchangesOf p).map (·.request)).Sublist (s.taken p)
  complete : ∀ p, ∀ request ∈ s.taken p, Complete request
  received : ∀ p, (s.taken p).flatten <+:
    (s.rep.router.queues.got p).filter fun m => !m.flags.routingId
  order : ∀ p ∈ s.rep.router.queues.attached, s.rep.router.queues.given p =
    s.rep.router.queues.got p ++ FairQueues.parts (s.rep.router.queues.sources p).queue

end Uzmq.Reps
