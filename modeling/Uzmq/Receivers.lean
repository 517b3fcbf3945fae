import Uzmq.Sessions
import Uzmq.V2Decoder

/-!
# The receive path of a stream engine

`stream_engine_t::in_event` reads, decodes and passes messages on to the session. If the session
answers `EAGAIN` the engine keeps the message in its decoder, stops reading and waits for
`restart_input`, which the session calls when its pipe can be written again.

Each call of `error` is the last thing its caller does. It is a step of its own here, and the I/O
thread can do nothing else before it; the thread of the socket can.
-/

namespace Uzmq.Receivers

open Message Handshake Pipes Sessions Runs
open V2Decoder (Decoder decode)

/-- What `tcp_read` returns. -/
inductive Read where
  | closed
  | failed
  | again
  | bytes (data : List UInt8)
  deriving DecidableEq, Repr

/-- The method `process_msg` points to. -/
inductive ProcessMsg where
  | processRoutingIdMsg
  | pushMsgToSession
  deriving DecidableEq, Repr

/-- `inbuf` is what `inpos` and `insize` delimit, and `inPlace` says that `get_buffer` offered the
message itself when it was read. `received` records all that was read. -/
structure Engine where
  isCtl : Bool
  decoder : Decoder
  inPlace : Bool := false
  inbuf : List UInt8 := []
  processMsg : ProcessMsg
  inputStopped : Bool := false
  ioError : Bool := false
  received : List UInt8 := []

def inBatchSize : Nat := 8192

def newDecoder (o : Options) : Decoder := Decoder.new inBatchSize o.maxmsgsize

/-- An engine as `plug` sets it up. One on the control path begins with a routing id. -/
def Engine.new (o : Options) (isCtl : Bool) : Engine where
  isCtl := isCtl
  decoder := newDecoder o
  processMsg := if isCtl then .processRoutingIdMsg else .pushMsgToSession

/-- Failed assertions: the one at the start of `restart_input`, the one on the answer to a routing
id, and the one of `decode`. -/
inductive Fault where
  | inputStopped
  | routingId
  | decode
  deriving DecidableEq, Repr

/-- How `process_msg` and the loop around it end: `rc` and `errno`. -/
inductive Result where
  | ok
  | again
  | malformed
  | aborted (fault : Fault)
  deriving DecidableEq, Repr

def setRoutingId (msg : Msg) : Msg := { msg with flags := { msg.flags with routingId := true } }

/-- `process_msg` on a message; the third result is what is left in it. -/
def processMsg (s : Session Engine) (e : Engine) (msg : Msg) :
    Session Engine × Engine × Msg × Result :=
  match e.processMsg with
  | .pushMsgToSession =>
    match s.pushMsg msg with
    | (s, msg, true) => (s, e, msg, .ok)
    | (s, msg, false) => (s, e, msg, .again)
  | .processRoutingIdMsg =>
    if s.options.recvRoutingId then
      match s.pushMsg (setRoutingId msg) with
      | (s, msg, true) => (s, { e with processMsg := .pushMsgToSession }, msg, .ok)
      | (s, msg, false) => (s, e, msg, .aborted .routingId)
    else (s, { e with processMsg := .pushMsgToSession }, {}, .ok)

/-- `process_msg` on the message in the decoder. -/
def processDecoded (s : Session Engine) (e : Engine) : Session Engine × Engine × Result :=
  match processMsg s e e.decoder.inProgress with
  | (s, e, msg, result) => (s, { e with decoder := { e.decoder with inProgress := msg } }, result)

/-- `while (insize > 0)`, which `in_event` and `restart_input` have in common. -/
def inputLoop : Nat → Session Engine → Engine → Session Engine × Engine × Result
  | 0, s, e => (s, e, .ok)
  | fuel + 1, s, e =>
    if e.inbuf.isEmpty then (s, e, .ok)
    else
      match decode e.inPlace e.decoder e.inbuf with
      | none => (s, e, .aborted .decode)
      | some (.zero, d, inbuf) => (s, { e with decoder := d, inbuf := inbuf }, .ok)
      | some (.emsgsize, d, inbuf) => (s, { e with decoder := d, inbuf := inbuf }, .malformed)
      | some (.message, d, inbuf) =>
        match processDecoded s { e with decoder := d, inbuf := inbuf } with
        | (s, e, .ok) => inputLoop fuel s e
        | r => r

/-- What is left of an engine that has failed. -/
structure Record where
  isCtl : Bool
  received : List UInt8
  accepted : List Msg

/-- `failing` says that the engine is about to call `error`. -/
structure State where
  session : Session Engine
  failing : Option Reason := none
  fault : Option Fault := none
  past : List Record := []

/-- The engine after it has run in the session. -/
def State.set (s : State) (session : Session Engine) (e : Engine) : State :=
  { s with session := { session with engine := some e } }

def State.setFlushed (s : State) (session : Session Engine) (e : Engine) : State :=
  s.set session.flush e

def State.fail (s : State) (reason : Reason) : State := { s with failing := some reason }

def State.abort (s : State) (fault : Fault) : State := { s with fault := some fault }

/-- The end of `in_event`. -/
def finishInput (s : State) : Session Engine × Engine × Result → State
  | (session, e, .ok) => s.setFlushed session e
  | (session, e, .again) => s.setFlushed session { e with inputStopped := true }
  | (session, e, .malformed) => (s.set session e).fail .protocolError
  | (session, e, .aborted fault) => (s.set session e).abort fault

/-- The buffer is what `get_buffer` offers. -/
def Engine.read (e : Engine) (data : List UInt8) : Engine :=
  { e with
    inPlace := e.decoder.inPlace
    inbuf := data
    received := e.received ++ data }

/-- `none` if the read is not possible: it returns at least one byte and no more than were asked
for. -/
def inEvent (s : State) (session : Session Engine) (e : Engine) (r : Read) : Option State :=
  if e.inputStopped then some (s.set session { e with ioError := true })
  else if !e.inbuf.isEmpty then
    some (finishInput s (inputLoop (e.inbuf.length + 1) session e))
  else
    match r with
    | .closed => some ((s.set session e).fail .connectionError)
    | .failed => some ((s.set session e).fail .connectionError)
    | .again => some (s.set session e)
    | .bytes data =>
      if 0 < data.length ∧ data.length ≤ e.decoder.offered then
        some (finishInput s (inputLoop (data.length + 1) session (e.read data)))
      else none

/-- The end of `restart_input`. -/
def finishRestart (s : State) (r : Read) : Session Engine × Engine × Result → Option State
  | (session, e, .again) => some (s.setFlushed session e)
  | (session, e, .aborted fault) => some ((s.set session e).abort fault)
  | (session, e, .malformed) =>
    some ((s.set session e).fail (if e.ioError then .connectionError else .protocolError))
  | (session, e, .ok) =>
    if e.ioError then some ((s.set session e).fail .connectionError)
    else inEvent s session.flush { e with inputStopped := false } r

def restartInput (s : State) (session : Session Engine) (e : Engine) (r : Read) : Option State :=
  if !e.inputStopped then some ((s.set session e).abort .inputStopped)
  else
    match processDecoded session e with
    | (session, e, .ok) => finishRestart s r (inputLoop (e.inbuf.length + 1) session e)
    | (session, e, .again) => some (s.setFlushed session e)
    | (session, e, .malformed) => some ((s.set session e).fail .protocolError)
    | (session, e, .aborted fault) => some ((s.set session e).abort fault)

/-- A raw socket is told about the end of the connection by an empty message. The answer is
ignored. -/
def notifyRaw (session : Session Engine) (e : Engine) : Session Engine × Result :=
  if session.options.rawSocket && session.options.rawNotify then
    match processMsg session e {} with
    | (session, _, _, .aborted fault) => (session, .aborted fault)
    | (session, _, _, _) => (session, .ok)
  else (session, .ok)

/-- `error` ends with the deletion of the engine. -/
def error (s : State) (e : Engine) (reason : Reason) : State :=
  match notifyRaw s.session e with
  | (session, .aborted fault) => { s with session := session, fault := some fault }
  | (session, _) =>
    { s with
      session := session.flush.engineError reason
      failing := none
      past := s.past ++ [⟨e.isCtl, e.received, s.session.accepted⟩] }

/-- What the I/O thread and, on the pipes, the thread of the socket can do. `pull` stands for the
output side of the engine. -/
inductive Input where
  | attach (isCtl : Bool) (r : Read)
  | inEvent (r : Read)
  | error
  | pull
  | processTerm (linger : Int)
  | timerEvent
  | deliver (k : Nat) (r : Read)
  | socketCall (k : Nat) (c : Call)
  | socketDeliver (k : Nat)

/-- The poller calls `in_event` until the descriptor is removed. -/
def pollStep (s : State) (r : Read) : Option State :=
  match s.session.engine with
  | none => none
  | some e => if e.ioError then none else inEvent s s.session e r

def attachStep (s : State) (isCtl : Bool) (r : Read) : Option State :=
  if s.session.connecting then
    let e := Engine.new s.session.options isCtl
    inEvent s (s.session.processAttach e) e r
  else none

def deliverStep (s : State) (k : Nat) (r : Read) : Option State :=
  match s.session.deliver k with
  | none => none
  | some (session, false) => some { s with session := session }
  | some (session, true) =>
    match session.engine with
    | none => some { s with session := session }
    | some e => restartInput s session e r

def sessionStep (s : State) (session : Session Engine) : Option State :=
  some { s with session := session }

/-- A step of the I/O thread, if it is not in a call of `error`. -/
def ioStep (s : State) : Input → Option State
  | .attach isCtl r => attachStep s isCtl r
  | .inEvent r => pollStep s r
  | .pull => if s.session.engine.isSome then sessionStep s s.session.pullMsg.1 else none
  | .processTerm linger =>
    if s.session.pending || s.session.terminating then none
    else sessionStep s (s.session.processTerm linger)
  | .timerEvent => if s.session.hasLingerTimer then sessionStep s s.session.timerEvent else none
  | .deliver k r => if s.session.created ≤ k then none else deliverStep s k r
  | _ => none

/-- Hiccups go from sessions to sockets only. -/
def step (s : State) (input : Input) : Option State :=
  if s.fault.isSome || s.session.failed then none
  else
    match input with
    | .socketCall _ .hiccup => none
    | .socketCall k c => (s.session.socketStep k (.call .second c)).bind (sessionStep s)
    | .socketDeliver k => (s.session.socketStep k (.deliver .second)).bind (sessionStep s)
    | .error =>
      match s.failing, s.session.engine with
      | some reason, some e => some (error s e reason)
      | _, _ => none
    | input => if s.failing.isSome then none else ioStep s input

def Initial (s : State) : Prop :=
  ∃ o active attached, s = { session := Session.new o active attached }

section Specification

/-- The messages in a byte stream, up to an error. -/
def messages (o : Options) (received : List UInt8) : List (List UInt8 × Flags) :=
  (V2Decoder.run (newDecoder o) received).1.map Msg.content

/-- What an engine owes the session for the messages it has decoded. On the control path the first
one is the routing id of the peer, which is marked and passed on if the socket asks for it. -/
def owed (o : Options) (isCtl : Bool) (msgs : List (List UInt8 × Flags)) :
    List (List UInt8 × Flags) :=
  if isCtl then
    match msgs with
    | [] => []
    | (data, flags) :: later =>
      if o.recvRoutingId then (data, { flags with routingId := true }) :: later else later
  else msgs

/-- All messages that were received have been accepted, once and in their order. -/
def Delivered (o : Options) (r : Record) : Prop :=
  r.accepted.map Msg.content = owed o r.isCtl (messages o r.received)

/-- The session has accepted all messages up to the one in the decoder, and nothing after this one
has been decoded. The pipe is going to wake up the engine. -/
structure Waits (s : Session Engine) (e : Engine) : Prop where
  accepted : ∃ bytes, e.received = bytes ++ e.inbuf ∧
    (s.accepted ++ [e.decoder.inProgress]).map Msg.content =
      owed s.options e.isCtl (messages s.options bytes)
  next : e.decoder.next = .flagsReady
  got : e.decoder.got = []
  shut : s.Shut

/-- The engine expects a routing id that has to be passed on, and a message that is not a command
arrives. -/
def routingIdDue (o : Options) (e : Engine) : Read → Bool
  | .bytes data => e.processMsg == .processRoutingIdMsg && o.recvRoutingId &&
      ((V2Decoder.run e.decoder data).1.head?.map fun m => !m.flags.command).getD false
  | _ => false

/-- The engine fails, and the message that tells a raw socket so goes to a pipe that will be used
by the next engine. -/
def notifiesOn (s : Session Engine) (e : Engine) (reason : Reason) : Bool :=
  s.options.rawSocket && s.options.rawNotify && e.processMsg == .pushMsgToSession &&
    s.keepsPipe reason

/-- Two answers of `push_msg` are not provided for: that of a pipe that cannot take the routing id,
and that of a full pipe to the last message for a raw socket. -/
def fits (s : State) : Input → Bool
  | .attach isCtl r =>
    !routingIdDue s.session.options (Engine.new s.session.options isCtl) r ||
      (s.session.canWrite || s.session.pipe.isNone && !s.session.terminating)
  | .inEvent r =>
    match s.session.engine with
    | none => true
    | some e => !routingIdDue s.session.options e r || s.session.canWrite
  | .error =>
    match s.failing, s.session.engine with
    | some reason, some e => !notifiesOn s.session e reason || !s.session.full
    | _, _ => true
  | _ => true

def Fits (s : State) (input : Input) : Prop := fits s input = true
  deriving Decidable

end Specification

end Uzmq.Receivers
