import Uzmq.Pipes

/-!
# Sessions

`session_base_t` between its engine and its pipe. The session has the first end of each of its
pipes, its socket the second one. A pipe that is given up when the connection is reestablished
stays among the terminating pipes until it is gone.

There is no security mechanism, so that nobody opens the pipe to a ZAP handler. The sessions of
REQ, RADIO and DISH sockets, which look into the messages they pass on, are not represented.
`failed` records a failed assertion.
-/

namespace Uzmq.Sessions

open Function
open Message Handshake Pipes

/-- What sessions and engines ask of the options. `immediate` stands for `immediate == 1` with a
transport that has connections, `reconnects` for `reconnect_ivl != -1`, `subscriber` for the types
of sockets that send their subscriptions again, and `conflate` for the option on a type of socket
that supports it. -/
structure Options where
  rawSocket : Bool
  rawNotify : Bool
  recvRoutingId : Bool
  immediate : Bool
  reconnects : Bool
  subscriber : Bool
  conflate : Bool
  rcvhwm : Int
  sndhwm : Int
  maxmsgsize : Int
  /-- A raw socket makes up the routing ids itself. -/
  raw : rawSocket = true → recvRoutingId = false

/-- `error_reason_t`. -/
inductive Reason where
  | protocolError
  | connectionError
  | timeoutError
  deriving DecidableEq, Repr

/-- The calls `pipe_t` makes to its sink. -/
inductive Callback where
  | readActivated
  | writeActivated
  | hiccuped
  | pipeTerminated
  deriving DecidableEq, Repr

/-- Which of them a command to a pipe leads to. -/
def callback (p : Pipe) : Command → Option Callback
  | .activateRead =>
    if !p.inActive && (p.state == .active || p.state == .waitingForDelimiter)
    then some .readActivated else none
  | .activateWrite _ => if !p.outActive && p.state == .active then some .writeActivated else none
  | .hiccup _ => if p.state == .active then some .hiccuped else none
  | .pipeTerm => none
  | .pipeTermAck => some .pipeTerminated
  | .pipeHwm _ _ => none

/-- The two ends of a new pipe between the session and its socket. -/
def newPipe (o : Options) : System :=
  pipepair
    (fun i => match i with
      | .first => if o.conflate then -1 else o.rcvhwm
      | .second => if o.conflate then -1 else o.sndhwm)
    fun _ => o.conflate

/-- `connecting` says that a connecter or a listener will send an engine. The pipes below
`created` exist or existed. `accepted` records the messages for which `push_msg` returned zero
since the engine was attached. -/
structure Session (Engine : Type) where
  options : Options
  active : Bool
  pipe : Option Nat
  terminatingPipes : List Nat := []
  incompleteIn : Bool := false
  pending : Bool := false
  engine : Option Engine := none
  hasLingerTimer : Bool := false
  terminating : Bool := false
  connecting : Bool := true
  pipes : Nat → System
  created : Nat
  accepted : List Msg := []
  failed : Bool := false

namespace Session

variable {Engine : Type}
variable (s : Session Engine)

/-- A session that has been plugged in. One that was made by `socket_base_t::connect` may have
been given its pipe already. -/
def new (o : Options) (active attached : Bool) : Session Engine where
  options := o
  active := active
  pipe := if attached then some 0 else none
  pipes _ := newPipe o
  created := if attached then 1 else 0

def fail : Session Engine := { s with failed := true }

/-- A method of the session's end of a pipe is called. -/
def call (k : Nat) (f : Local → Local) : Session Engine :=
  { s with pipes :=
      update s.pipes k ((s.pipes k).commit .first (f ((s.pipes k).view .first))) }

def callPipe (f : Local → Local) : Session Engine :=
  match s.pipe with
  | none => s
  | some k => s.call k f

def checkRead : Session Engine := s.callPipe fun l => l.checkRead.1

def pullMsg : Session Engine × Option Msg :=
  match s.pipe with
  | none => (s, none)
  | some k =>
    match ((s.pipes k).view .first).read.2 with
    | none => (s.call k fun l => l.read.1, none)
    | some msg => ({ s.call k fun l => l.read.1 with incompleteIn := msg.flags.more }, some msg)

def accept (msg : Msg) : Session Engine :=
  { s with accepted := s.accepted ++ [msg] }

/-- The second result is what is left in the caller's message, the third one says whether the
message was accepted or the answer is `EAGAIN`. -/
def pushMsg (msg : Msg) : Session Engine × Msg × Bool :=
  if msg.flags.command then (s.accept msg, msg, true)
  else
    match s.pipe with
    | none => (s, msg, false)
    | some k =>
      if (((s.pipes k).view .first).write msg).2
      then ((s.call k fun l => (l.write msg).1).accept msg, {}, true)
      else (s.call k fun l => (l.write msg).1, msg, false)

def flush : Session Engine := s.callPipe Local.flush

/-- Remove a message that was pulled in part. Running out of parts is the failed assertion. -/
def dropHalfRead : Nat → Session Engine → Session Engine
  | 0, s => if s.incompleteIn then s.fail else s
  | fuel + 1, s =>
    if s.incompleteIn then
      match s.pullMsg with
      | (s, none) => s.fail
      | (s, some _) => dropHalfRead fuel s
    else s

/-- The number of parts the session could pull. -/
def readable : Nat :=
  match s.pipe with
  | none => 0
  | some k =>
    (((s.pipes k).queue .first ((s.pipes k).pipe .first).inpipe).map
      fun q => q.readable.length).getD 0

def cleanPipes : Session Engine :=
  let s := (s.callPipe Local.rollback).callPipe Local.flush
  dropHalfRead (s.readable + 1) s

/-- `own_t::process_term`. -/
def ownProcessTerm : Session Engine :=
  if s.terminating then s.fail else { s with terminating := true }

/-- `own_t::terminate` asks the owner; the command `term` is on its way then. -/
def terminate : Session Engine := s

def forgetEngine : Session Engine := { s with engine := none }

def pipeTerminated (k : Nat) : Session Engine :=
  if s.pipe = some k ∨ k ∈ s.terminatingPipes then
    let s :=
      if s.pipe = some k then { s with pipe := none, hasLingerTimer := false }
      else { s with terminatingPipes := s.terminatingPipes.erase k }
    let s := if !s.terminating && s.options.rawSocket then s.forgetEngine.terminate else s
    if s.pending && s.pipe.isNone && s.terminatingPipes.isEmpty
    then { s with pending := false }.ownProcessTerm else s
  else s.fail

/-- An attached engine then gets `restart_output` and pulls. -/
def readActivated (k : Nat) : Session Engine :=
  if s.pipe ≠ some k then if k ∈ s.terminatingPipes then s else s.fail
  else if s.engine.isNone then s.checkRead
  else s

/-- The second result says that the engine gets `restart_input`. -/
def writeActivated (k : Nat) : Session Engine × Bool :=
  if s.pipe ≠ some k then (if k ∈ s.terminatingPipes then s else s.fail, false)
  else (s, s.engine.isSome)

def notify (k : Nat) : Option Callback → Session Engine × Bool
  | none => (s, false)
  | some .readActivated => (s.readActivated k, false)
  | some .writeActivated => s.writeActivated k
  | some .hiccuped => (s.fail, false)
  | some .pipeTerminated => (s.pipeTerminated k, false)

/-- The session with a pipe to which something has happened. -/
def withPipe (k : Nat) (p : System) : Session Engine :=
  { s with pipes := update s.pipes k p }

/-- The session's end of a pipe processes its next command. An end that is gone calls nobody. -/
def deliver (k : Nat) : Option (Session Engine × Bool) :=
  match (s.pipes k).mailbox .first with
  | [] => none
  | c :: _ =>
    match Pipes.step (s.pipes k) (.deliver .first) with
    | none => none
    | some p =>
      let first := (s.pipes k).pipe .first
      some ((s.withPipe k p).notify k (if first.deleted then none else callback first c))

/-- Create the pipe if it does not exist. -/
def makePipe : Session Engine :=
  if s.pipe.isNone && !s.terminating then
    { s with
      pipe := some s.created
      pipes := update s.pipes s.created (newPipe s.options)
      created := s.created + 1 }
  else s

def processAttach (engine : Engine) : Session Engine :=
  let s := s.makePipe
  if s.engine.isSome then s.fail
  else { s with engine := some engine, connecting := false, accepted := [] }

def startConnecting : Session Engine :=
  if s.active then { s with connecting := true } else s.fail

/-- The pipe is terminated now and made anew when an engine is attached. -/
def detachPipe (k : Nat) : Session Engine :=
  { (s.call k Local.hiccup).call k fun l => l.terminate false with
    pipe := none
    terminatingPipes := s.terminatingPipes ++ [k]
    hasLingerTimer := false }

def reconnect : Session Engine :=
  let s :=
    match s.pipe with
    | none => s
    | some k => if s.options.immediate then s.detachPipe k else s
  let s := if s.options.reconnects then s.startConnecting else s
  if s.options.subscriber then s.callPipe Local.hiccup else s

/-- The session will get another engine on the pipe it has. -/
def keepsPipe (reason : Reason) : Bool :=
  s.active && reason != .protocolError && s.options.reconnects && !s.options.immediate

/-- A session without a connection to make gives up. -/
def giveUp : Session Engine :=
  if s.pending then s.callPipe fun l => l.terminate false else s.terminate

def handleError (reason : Reason) : Session Engine :=
  match reason with
  | .timeoutError => if s.active then s.reconnect else s.giveUp
  | .connectionError => if s.active then s.reconnect else s.giveUp
  | .protocolError => s.giveUp

def engineError (reason : Reason) : Session Engine :=
  let s := s.forgetEngine
  let s := if s.pipe.isSome then s.cleanPipes else s
  if s.failed then s else (s.handleError reason).checkRead

def processTerm (linger : Int) : Session Engine :=
  if s.pending then s.fail
  else if s.pipe.isNone && s.terminatingPipes.isEmpty then s.ownProcessTerm
  else
    let s := { s with pending := true }
    match s.pipe with
    | none => s
    | some k =>
      if 0 < linger ∧ s.hasLingerTimer then s.fail
      else
        let s := { s with hasLingerTimer := s.hasLingerTimer || decide (0 < linger) }
        let s := s.call k fun l => l.terminate (decide (linger ≠ 0))
        if s.engine.isNone then s.checkRead else s

/-- The linger period has expired. -/
def timerEvent : Session Engine :=
  match s.pipe with
  | none => s.fail
  | some k => { s with hasLingerTimer := false }.call k fun l => l.terminate false

/-- The other thread: the socket calls its end of a pipe, or that end processes a command. -/
def socketStep (k : Nat) (input : Pipes.Input) : Option (Session Engine) :=
  if s.created ≤ k then none
  else
    match Pipes.step (s.pipes k) input with
    | none => none
    | some p => some (s.withPipe k p)

/-- The session's end of a pipe. -/
def fore (k : Nat) : Pipe := (s.pipes k).pipe .first

/-- The pipe has not refused the last message. -/
def Open : Prop :=
  ∀ k, s.pipe = some k → (s.fore k).state = .active → (s.fore k).outActive = true

/-- The pipe has refused the last message and not been read since. -/
def Shut : Prop :=
  s.failed = false → ∀ k, s.pipe = some k → (s.pipes k).failed = false →
    (s.fore k).state = .active → (s.fore k).outActive = false

def canWrite : Bool :=
  match s.pipe with
  | none => false
  | some k => (((s.pipes k).view .first).write {}).2

/-- The pipe is open and its high-water mark has been reached. -/
def full : Bool :=
  match s.pipe with
  | none => false
  | some k => (s.fore k).state == .active && !(s.fore k).checkHwm

end Session

end Uzmq.Sessions
