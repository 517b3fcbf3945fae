import Uzmq.Rendezvous

/-!
# Contexts and the reaper

`ctx_t` keeps the list of its sockets under `slot_sync`. A socket that is closed goes to the
reaper by a `reap` command; the reaper's thread later destroys it, which removes it from the list,
and tells the reaper by `reaped`. The reaper is asked to stop by whoever finds the list empty
after `terminate` or `shutdown`, and posts `done` once it has been asked to stop and has no sockets
left. The reaper counts its sockets on its own.

`terminate` holds `slot_sync` while it binds sockets of its own to the addresses with pending
connections. Connections go on in the meantime, since they need `endpoints_sync` only. The `stop`
commands to the sockets, which interrupt blocking calls, play no part here.

The sequence numbers of a socket are exact, as those of the code are while fewer than `2 ^ 32`
connections wait for one socket. An `array_t` cannot hold that many.
-/

namespace Uzmq.Contexts

open Function (update)
open Rendezvous (Ctx)

/-- The commands in the reaper's mailbox. -/
inductive ReaperCommand (Socket : Type) where
  | stop
  | reap (socket : Socket)
  | reaped
  deriving DecidableEq

structure Reaper where
  sockets : Int
  terminating : Bool
  deriving DecidableEq

/-- Where a call of `terminate` stands. The first two stages hold `slot_sync`, and remember
whether the context was terminating before. -/
inductive Term (Addr Socket : Type) where
  | idle
  | connecting (saved : Bool) (todo : List Addr)
  | binding (saved : Bool) (socket : Socket) (todo : List Addr)
  | waiting
  | deleted
  deriving DecidableEq

/-- Why `create_socket` returns no socket. -/
inductive Failure where
  | eterm
  | emfile
  | einval
  deriving DecidableEq

/-- The context, its connections and its reaper. `reaping` lists the sockets that are plugged to
the reaper, `leaving` those that are destroyed and have not told the reaper. `asked`, `posted`,
`created` and `removed` record what has happened. -/
structure State (Addr Socket Conn : Type) where
  starting : Bool
  terminating : Bool
  sockets : List Socket
  maxSockets : Nat
  emptySlots : Nat
  rendezvous : Ctx Addr Socket Conn
  term : Term Addr Socket
  reaper : Reaper
  reaperMailbox : List (ReaperCommand Socket)
  reaping : List Socket
  leaving : List Socket
  termMailbox : Nat
  asked : Bool
  posted : Nat
  created : List Socket
  removed : List Socket

variable {Addr Socket Conn : Type} [DecidableEq Addr] [DecidableEq Socket] [DecidableEq Conn]

namespace State

variable (s : State Addr Socket Conn)

/-- The slots are made with the first socket. -/
def begin : State Addr Socket Conn :=
  if s.starting then { s with starting := false, emptySlots := s.maxSockets } else s

/-- `ctx_t::create_socket`. `valid` says that there are sockets of the type. -/
def createSocket (socket : Socket) (valid : Bool) :
    State Addr Socket Conn × Except Failure Socket :=
  if s.begin.terminating then (s.begin, .error .eterm)
  else if s.begin.emptySlots = 0 then (s.begin, .error .emfile)
  else if valid then
    ({ s.begin with
        sockets := s.begin.sockets ++ [socket]
        emptySlots := s.begin.emptySlots - 1
        created := s.begin.created ++ [socket] }, .ok socket)
  else (s.begin, .error .einval)

/-- `reaper_t::stop`. -/
def stopReaper : State Addr Socket Conn :=
  { s with reaperMailbox := s.reaperMailbox ++ [.stop] }

/-- `ctx_t::destroy_socket`. -/
def destroySocket (socket : Socket) : State Addr Socket Conn :=
  let s := { s with
    sockets := s.sockets.erase socket
    emptySlots := s.emptySlots + 1
    removed := s.removed ++ [socket] }
  if s.terminating ∧ s.sockets = [] then s.stopReaper else s

/-- The first request to terminate. -/
def stopAll : State Addr Socket Conn :=
  if s.sockets = [] then { s with terminating := true }.stopReaper
  else { s with terminating := true }

/-- `ctx_t::shutdown`. -/
def shutdown : State Addr Socket Conn :=
  let s := { s with asked := true }
  if !s.starting && !s.terminating then s.stopAll else s

/-- `socket_base_t::close`. -/
def close (socket : Socket) : State Addr Socket Conn :=
  { s with
    rendezvous := { s.rendezvous with checkTag := update s.rendezvous.checkTag socket false }
    reaperMailbox := s.reaperMailbox ++ [.reap socket] }

/-- `object_t::send_done`. -/
def sendDone : State Addr Socket Conn :=
  { s with termMailbox := s.termMailbox + 1, posted := s.posted + 1 }

/-- `reaper_t::process_stop`. -/
def processStop : State Addr Socket Conn :=
  let s := { s with reaper := { s.reaper with terminating := true } }
  if s.reaper.sockets = 0 then s.sendDone else s

/-- `reaper_t::process_reap`. -/
def processReap (socket : Socket) : State Addr Socket Conn :=
  { s with
    reaping := socket :: s.reaping
    reaper := { s.reaper with sockets := s.reaper.sockets + 1 } }

/-- `reaper_t::process_reaped`. -/
def processReaped : State Addr Socket Conn :=
  let s := { s with reaper := { s.reaper with sockets := s.reaper.sockets - 1 } }
  if s.reaper.sockets = 0 ∧ s.reaper.terminating then s.sendDone else s

def processCommand : ReaperCommand Socket → State Addr Socket Conn
  | .stop => s.processStop
  | .reap socket => s.processReap socket
  | .reaped => s.processReaped

/-- The loop of `terminate` begins with a copy of the pending connections. -/
def terminate : State Addr Socket Conn :=
  { s with
    asked := true
    terminating := false
    term := .connecting s.terminating (s.rendezvous.pendingConnections.map Prod.fst) }

/-- `terminate` makes a socket, which is asserted to succeed, and registers it as a binder. -/
def terminateBind (socket : Socket) : Option (State Addr Socket Conn) :=
  match s.term with
  | .connecting saved (addr :: todo) =>
    match s.createSocket socket true with
    | (s, .ok _) => some { s with
        rendezvous := s.rendezvous.bind socket addr ⟨false, []⟩
        term := .binding saved socket todo }
    | (_, .error _) => none
  | _ => none

/-- If the address was not in use, the pending connections are connected. The socket is closed. -/
def terminateClose : Option (State Addr Socket Conn) :=
  match s.term with
  | .binding saved socket todo =>
    match s.rendezvous.current socket with
    | none => some (close { s with term := .connecting saved todo } socket)
    | some _ => do
      let rendezvous ← Rendezvous.step s.rendezvous (.bindPending socket)
      some (close { s with rendezvous, term := .connecting saved todo } socket)
  | _ => none

/-- `terminate` after its loop. It waits for `done`, unless the context was never used. -/
def terminateWait : Option (State Addr Socket Conn) :=
  match s.term with
  | .connecting saved [] =>
    if s.starting then some { s with terminating := saved, term := .deleted }
    else if saved then some { s with terminating := true, term := .waiting }
    else some { s.stopAll with term := .waiting }
  | _ => none

/-- `terminate` has received `done`. It is asserted that there are no sockets. -/
def receiveDone : Option (State Addr Socket Conn) :=
  if s.term = .waiting ∧ 0 < s.termMailbox ∧ s.sockets = [] then
    some { s with termMailbox := s.termMailbox - 1, term := .deleted }
  else none

/-- Somebody holds `slot_sync` for longer than one operation. -/
def locked : Bool :=
  match s.term with
  | .connecting .. | .binding .. => true
  | _ => false

/-- The socket that `terminate` is working with. -/
def own : Option Socket :=
  match s.term with
  | .binding _ socket _ => some socket
  | _ => none

end State

/-- The socket that makes the call. -/
def actor : Rendezvous.Input Addr Socket Conn → Socket
  | .bind socket _ _ | .connect socket _ _ | .connectPipes socket _ | .bindPending socket
  | .unregisterEndpoint socket _ | .unregisterEndpoints socket | .processCommand socket
  | .close socket => socket

inductive Input (Addr Socket Conn : Type) where
  | createSocket (socket : Socket) (valid : Bool)
  | rendezvous (input : Rendezvous.Input Addr Socket Conn)
  | close (socket : Socket)
  | processCommand
  | destroySocket (socket : Socket)
  | sendReaped (socket : Socket)
  | shutdown
  | terminate
  | terminateBind (socket : Socket)
  | terminateClose
  | terminateWait
  | interrupt
  | receiveDone

/-- One step of the users of the context or of its reaper. A socket is destroyed when it is
plugged to the reaper and `own_t` has processed all commands that were counted for it. -/
def act (s : State Addr Socket Conn) : Input Addr Socket Conn → Option (State Addr Socket Conn)
  | .createSocket socket valid =>
    if s.locked ∨ socket ∈ s.created then none else some (s.createSocket socket valid).1
  | .rendezvous (.close _) => none
  | .rendezvous input =>
    if actor input ∈ s.sockets then do
      let rendezvous ← Rendezvous.step s.rendezvous input
      some { s with rendezvous }
    else none
  | .close socket =>
    if socket ∈ s.sockets ∧ s.rendezvous.Idle socket ∧ s.rendezvous.checkTag socket ∧
        s.own ≠ some socket then
      some (s.close socket)
    else none
  | .processCommand =>
    match s.reaperMailbox with
    | [] => none
    | command :: later => some (State.processCommand { s with reaperMailbox := later } command)
  | .destroySocket socket =>
    if ¬ s.locked ∧ socket ∈ s.reaping ∧
        s.rendezvous.processedSeqnum socket = s.rendezvous.sentSeqnum socket then
      some (State.destroySocket { s with
        reaping := s.reaping.erase socket
        leaving := socket :: s.leaving } socket)
    else none
  | .sendReaped socket =>
    if socket ∈ s.leaving then
      some { s with
        leaving := s.leaving.erase socket
        reaperMailbox := s.reaperMailbox ++ [.reaped] }
    else none
  | .shutdown => if s.locked then none else some s.shutdown
  | .terminate => if s.term = .idle then some s.terminate else none
  | .terminateBind socket => if socket ∈ s.created then none else s.terminateBind socket
  | .terminateClose => s.terminateClose
  | .terminateWait => s.terminateWait
  | .interrupt => if s.term = .waiting then some { s with term := .idle } else none
  | .receiveDone => s.receiveDone

/-- Nothing happens any more in a context that is deleted. -/
def step (s : State Addr Socket Conn) (input : Input Addr Socket Conn) :
    Option (State Addr Socket Conn) :=
  if s.term = .deleted then none else act s input

structure Initial (s : State Addr Socket Conn) : Prop where
  starting : s.starting = true
  terminating : s.terminating = false
  sockets : s.sockets = []
  rendezvous : Rendezvous.Initial s.rendezvous
  checkTag : ∀ socket, s.rendezvous.checkTag socket = true
  term : s.term = .idle
  reaper : s.reaper = ⟨0, false⟩
  reaperMailbox : s.reaperMailbox = []
  reaping : s.reaping = []
  leaving : s.leaving = []
  termMailbox : s.termMailbox = 0
  asked : s.asked = false
  posted : s.posted = 0
  created : s.created = []
  removed : s.removed = []

/-- The reaper is done once, and after everything else. -/
structure Finished (s : State Addr Socket Conn) : Prop where
  once : s.posted ≤ 1
  asked : 0 < s.posted → s.asked = true
  removed : 0 < s.posted → s.sockets = [] ∧ ∀ x ∈ s.created, x ∈ s.removed
  receiveDone : s.term = .waiting → 0 < s.termMailbox → ∃ t, step s .receiveDone = some t

end Uzmq.Contexts
