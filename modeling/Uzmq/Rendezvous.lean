import Uzmq.Lanes
import Uzmq.Runs

/-!
# In-process rendezvous

Binders and connecters of one context meet under an address. `ctx_t` keeps the endpoints that
are bound and the connections that wait for a binder, and does each of its operations under
`endpoints_sync`. A socket makes one call at a time, and a call is two operations: `bind` registers
the endpoint and then connects what is pending, `connect` looks for the endpoint and then either
sends `bind` to the peer or pends the connection. Operations of other sockets come in between.

The watermarks that these functions set are the subject of `Uzmq.PipeWatermarks`.
-/

namespace Uzmq.Rendezvous

open Function (update)

/-- The options that decide on the routing ids of a new connection. -/
structure Options where
  recvRoutingId : Bool
  routingId : List UInt8
  deriving DecidableEq

structure Endpoint (Socket : Type) where
  socket : Socket
  options : Options
  deriving DecidableEq

/-- The two pipes of a connection: the thread of the binder's end, and the routing ids that wait
at both ends. -/
structure Pipes (Socket : Type) where
  bindTid : Socket
  toBind : List (List UInt8)
  toConnect : List (List UInt8)
  deriving DecidableEq

/-- `pending_connection_t`. The pipes go by the name of the connection. -/
structure PendingConnection (Socket Conn : Type) where
  endpoint : Endpoint Socket
  pipes : Conn
  deriving DecidableEq

/-- The two commands that are counted. -/
inductive Command (Conn : Type) where
  | bind (pipes : Conn)
  | inprocConnected
  deriving DecidableEq

inductive Side where
  | connectSide
  | bindSide
  deriving DecidableEq

/-- Where a socket stands between the two operations of a call. -/
inductive Call (Addr Socket : Type) where
  | binding (addr : Addr)
  | found (peer : Endpoint Socket) (options : Options)
  | missed (addr : Addr) (options : Options)
  deriving DecidableEq

/-- The context and its sockets. `sentSeqnum` counts the calls of `inc_seqnum`, and `attached`
lists what the sockets have attached by `process_bind`. -/
structure Ctx (Addr Socket Conn : Type) where
  endpoints : Addr → Option (Endpoint Socket)
  pendingConnections : List (Addr × PendingConnection Socket Conn)
  pipes : Conn → Option (Pipes Socket)
  checkTag : Socket → Bool
  calls : List (Socket × Call Addr Socket)
  mailboxes : List (Socket × Command Conn)
  attached : List (Conn × Socket)
  sentSeqnum : Socket → Nat
  processedSeqnum : Socket → Nat

variable {Addr Socket Conn : Type} [DecidableEq Addr] [DecidableEq Socket] [DecidableEq Conn]

namespace Ctx

variable (s : Ctx Addr Socket Conn)

/-- `own_t::inc_seqnum`. -/
def incSeqnum (socket : Socket) : Ctx Addr Socket Conn :=
  { s with sentSeqnum := update s.sentSeqnum socket (s.sentSeqnum socket + 1) }

/-- `object_t::send_bind` with `inc_seqnum_` false. -/
def sendBind (destination : Socket) (pipes : Conn) : Ctx Addr Socket Conn :=
  { s with mailboxes := s.mailboxes ++ [(destination, .bind pipes)] }

/-- `object_t::send_inproc_connected`. -/
def sendInprocConnected (socket : Socket) : Ctx Addr Socket Conn :=
  { s with mailboxes := s.mailboxes ++ [(socket, .inprocConnected)] }

/-- `own_t::process_seqnum`. -/
def processSeqnum (socket : Socket) : Ctx Addr Socket Conn :=
  { s with processedSeqnum := update s.processedSeqnum socket (s.processedSeqnum socket + 1) }

/-- `object_t::process_command` for the two commands. -/
def processCommand (socket : Socket) : Command Conn → Ctx Addr Socket Conn
  | .bind pipes => { s with attached := s.attached ++ [(pipes, socket)] }.processSeqnum socket
  | .inprocConnected => s.processSeqnum socket

/-- `ctx_t::register_endpoint`. It fails with `EADDRINUSE`. -/
def registerEndpoint (addr : Addr) (endpoint : Endpoint Socket) : Option (Ctx Addr Socket Conn) :=
  match s.endpoints addr with
  | some _ => none
  | none => some { s with endpoints := update s.endpoints addr (some endpoint) }

/-- `ctx_t::unregister_endpoint`. It fails with `ENOENT`. -/
def unregisterEndpoint (addr : Addr) (socket : Socket) : Option (Ctx Addr Socket Conn) :=
  match s.endpoints addr with
  | none => none
  | some endpoint =>
    if endpoint.socket = socket then some { s with endpoints := update s.endpoints addr none }
    else none

/-- `ctx_t::unregister_endpoints`. -/
def unregisterEndpoints (socket : Socket) : Ctx Addr Socket Conn :=
  { s with
    endpoints := fun addr => (s.endpoints addr).filter fun endpoint => endpoint.socket ≠ socket }

/-- `ctx_t::find_endpoint`. -/
def findEndpoint (addr : Addr) : Ctx Addr Socket Conn × Option (Endpoint Socket) :=
  match s.endpoints addr with
  | none => (s, none)
  | some endpoint => (s.incSeqnum endpoint.socket, some endpoint)

end Ctx

namespace Pipes

/-- The binder's end moves to the binder's thread, and the routing id is read away if the binder
does not want it. The read is asserted to succeed. -/
def dropRoutingId (pair : Pipes Socket) (bindSocket : Socket) (bindOptions : Options) :
    Option (Pipes Socket) :=
  if bindOptions.recvRoutingId then some { pair with bindTid := bindSocket }
  else
    match pair.toBind with
    | [] => none
    | _ :: later => some { pair with bindTid := bindSocket, toBind := later }

/-- The binder's routing id is written for the connecter. -/
def sendRoutingId (pair : Pipes Socket) (bindOptions : Options) : Pipes Socket :=
  { pair with toConnect := pair.toConnect ++ [bindOptions.routingId] }

end Pipes

namespace Ctx

variable (s : Ctx Addr Socket Conn)

/-- The part of `connect_inproc_sockets` that differs between the two sides. -/
def hand (bindSocket : Socket)
    (pending : PendingConnection Socket Conn) : Side → Ctx Addr Socket Conn
  | .bindSide =>
    (s.processCommand bindSocket (.bind pending.pipes)).sendInprocConnected pending.endpoint.socket
  | .connectSide => s.sendBind bindSocket pending.pipes

/-- `ctx_t::connect_inproc_sockets`. -/
def connectInprocSockets (bindSocket : Socket) (bindOptions : Options)
    (pending : PendingConnection Socket Conn) (side : Side) : Option (Ctx Addr Socket Conn) := do
  let pair ← s.pipes pending.pipes
  let pair ← pair.dropRoutingId bindSocket bindOptions
  let s := (s.incSeqnum bindSocket).hand bindSocket pending side
  if pending.endpoint.options.recvRoutingId && s.checkTag pending.endpoint.socket then
    some { s with pipes := update s.pipes pending.pipes (some (pair.sendRoutingId bindOptions)) }
  else
    some { s with pipes := update s.pipes pending.pipes (some pair) }

/-- `ctx_t::pend_connection`. -/
def pendConnection (addr : Addr) (endpoint : Endpoint Socket)
    (pipes : Conn) : Option (Ctx Addr Socket Conn) :=
  match s.endpoints addr with
  | none =>
    let s := s.incSeqnum endpoint.socket
    some { s with pendingConnections := s.pendingConnections ++ [(addr, ⟨endpoint, pipes⟩)] }
  | some binder =>
    s.connectInprocSockets binder.socket binder.options ⟨endpoint, pipes⟩ .connectSide

/-- The loop of `connect_pending`. The options are those of `endpoints [addr_]`, which would
insert an entry without a socket if there were none. -/
def connectAll (addr : Addr) (bindSocket : Socket) :
    List (Addr × PendingConnection Socket Conn) → Ctx Addr Socket Conn →
      Option (Ctx Addr Socket Conn)
  | [], s => some s
  | p :: later, s => do
    let endpoint ← s.endpoints addr
    let s ← s.connectInprocSockets bindSocket endpoint.options p.2 .bindSide
    connectAll addr bindSocket later s

/-- `ctx_t::connect_pending`. -/
def connectPending (addr : Addr) (bindSocket : Socket) : Option (Ctx Addr Socket Conn) := do
  let s ← connectAll addr bindSocket (s.pendingConnections.filter fun p => p.1 = addr) s
  some { s with pendingConnections := s.pendingConnections.filter fun p => p.1 ≠ addr }

/-- The new pipes of `socket_base_t::connect`, with the routing ids written to them. -/
def newPipes (socket : Socket) (options : Options) : Option (Endpoint Socket) → Pipes Socket
  | none => ⟨socket, [options.routingId], []⟩
  | some peer =>
    ⟨peer.socket, if peer.options.recvRoutingId then [options.routingId] else [],
      if options.recvRoutingId then [peer.options.routingId] else []⟩

/-- The first half of `socket_base_t::bind`. -/
def bind (socket : Socket) (addr : Addr) (options : Options) : Ctx Addr Socket Conn :=
  match s.registerEndpoint addr ⟨socket, options⟩ with
  | none => s
  | some s => { s with calls := (socket, .binding addr) :: s.calls }

/-- The first half of `socket_base_t::connect`. -/
def connect (socket : Socket) (addr : Addr) (options : Options) : Ctx Addr Socket Conn :=
  match s.findEndpoint addr with
  | (s, none) => { s with calls := (socket, .missed addr options) :: s.calls }
  | (s, some peer) => { s with calls := (socket, .found peer options) :: s.calls }

/-- The second half of `socket_base_t::connect`, with new pipes for the connection. -/
def connectPipes (socket : Socket) (conn : Conn) : Call Addr Socket → Option (Ctx Addr Socket Conn)
  | .found peer options =>
    some (Ctx.sendBind { s with
      pipes := update s.pipes conn (some (newPipes socket options (some peer))) } peer.socket conn)
  | .missed addr options =>
    Ctx.pendConnection { s with
      pipes := update s.pipes conn (some (newPipes socket options none)) }
      addr ⟨socket, options⟩ conn
  | .binding _ => none

/-- The second half of `socket_base_t::bind`. -/
def bindPending (socket : Socket) : Call Addr Socket → Option (Ctx Addr Socket Conn)
  | .binding addr => s.connectPending addr socket
  | _ => none

/-- The socket is in no call. -/
def Idle (socket : Socket) : Prop := ∀ c ∈ s.calls, c.1 ≠ socket

instance (s : Ctx Addr Socket Conn) (socket : Socket) : Decidable (s.Idle socket) :=
  inferInstanceAs (Decidable (∀ c ∈ s.calls, c.1 ≠ socket))

/-- The call of a socket, and the other calls. -/
def current (socket : Socket) :
    Option ((Socket × Call Addr Socket) × List (Socket × Call Addr Socket)) :=
  Lanes.takeFirst (fun c => c.1 = socket) s.calls

end Ctx

inductive Input (Addr Socket Conn : Type) where
  | bind (socket : Socket) (addr : Addr) (options : Options)
  | connect (socket : Socket) (addr : Addr) (options : Options)
  | connectPipes (socket : Socket) (conn : Conn)
  | bindPending (socket : Socket)
  | unregisterEndpoint (socket : Socket) (addr : Addr)
  | unregisterEndpoints (socket : Socket)
  | processCommand (socket : Socket)
  | close (socket : Socket)

/-- One operation. An input that is not possible in the state gives no step, and neither does a
failed assertion. -/
def step (s : Ctx Addr Socket Conn) : Input Addr Socket Conn → Option (Ctx Addr Socket Conn)
  | .bind socket addr options =>
    if s.Idle socket ∧ s.checkTag socket then some (s.bind socket addr options) else none
  | .connect socket addr options =>
    if s.Idle socket ∧ s.checkTag socket then some (s.connect socket addr options) else none
  | .connectPipes socket conn =>
    if s.pipes conn = none then do
      let (call, calls) ← s.current socket
      Ctx.connectPipes { s with calls } socket conn call.2
    else none
  | .bindPending socket => do
    let (call, calls) ← s.current socket
    Ctx.bindPending { s with calls } socket call.2
  | .unregisterEndpoint socket addr =>
    if s.Idle socket then some ((s.unregisterEndpoint addr socket).getD s) else none
  | .unregisterEndpoints socket =>
    if s.Idle socket then some (s.unregisterEndpoints socket) else none
  | .processCommand socket => do
    let (packet, mailboxes) ← Lanes.takeFirst (fun packet => packet.1 = socket) s.mailboxes
    some (Ctx.processCommand { s with mailboxes } socket packet.2)
  | .close socket =>
    if s.Idle socket then some { s with checkTag := update s.checkTag socket false } else none

structure Initial (s : Ctx Addr Socket Conn) : Prop where
  endpoints : ∀ addr, s.endpoints addr = none
  pendingConnections : s.pendingConnections = []
  pipes : ∀ conn, s.pipes conn = none
  calls : s.calls = []
  mailboxes : s.mailboxes = []
  attached : s.attached = []
  sentSeqnum : ∀ socket, s.sentSeqnum socket = 0
  processedSeqnum : ∀ socket, s.processedSeqnum socket = 0

/-- The connection that a command hands to its socket. -/
def bindOf : Socket × Command Conn → Option (Conn × Socket)
  | (socket, .bind pipes) => some (pipes, socket)
  | (_, .inprocConnected) => none

/-- The connection found the endpoint of the socket. -/
def Call.finds (socket : Socket) : Call Addr Socket → Bool
  | .found peer _ => peer.socket = socket
  | _ => false

namespace Ctx

variable (s : Ctx Addr Socket Conn)

/-- The connections that are attached to a binder or will be by a command on its way to it. -/
def handed : List (Conn × Socket) :=
  s.attached ++ s.mailboxes.filterMap bindOf

/-- The commands addressed to a socket that count: those processed and those on their way. -/
def addressed (socket : Socket) : Nat :=
  s.processedSeqnum socket + s.mailboxes.countP fun packet => packet.1 = socket

/-- The connections of a socket that wait for a binder. -/
def pended (socket : Socket) : Nat :=
  s.pendingConnections.countP fun p => p.2.endpoint.socket = socket

/-- The connections that have found a socket and have not sent `bind` to it yet. -/
def promised (socket : Socket) : Nat :=
  s.calls.countP fun c => c.2.finds socket

end Ctx

end Uzmq.Rendezvous
