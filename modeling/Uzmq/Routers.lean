import Uzmq.Channel
import Uzmq.FairQueues
import Uzmq.V2Decoder
import Uzmq.Wire

/-!
# Router sockets

`router_t` over pipes with a reading end as in fair queueing and a writing end. A pipe that is read
from and not written to waits for the delimiter. Whether a pipe has room, which is what `check_hwm`
says, changes from outside. The delimiter that `terminate` writes is left out.

The loops of `xrecv` and `xhas_in` that drop routing ids are taken one turn at a time. No result
stands for a failed assertion.
-/

namespace Uzmq.Routers

open Function
open Message
open FairQueues (Source)

variable {Pipe : Type} [DecidableEq Pipe]

abbrev Blob := List UInt8

theorem nil_more : ∀ m ∈ ([] : List Msg), m.flags.more = true := by simp

/-- The writing end of a pipe; `alive` says that the state is `active`. -/
structure Sink where
  queue : Channel Msg := {}
  more : ∀ m ∈ queue.unfinished, m.flags.more = true := by exact Routers.nil_more
  outActive : Bool := true
  alive : Bool := true
  room : Bool := true

namespace Sink

def Writable (s : Sink) : Prop := s.outActive = true ∧ s.alive = true ∧ s.room = true
  deriving Decidable

def checkWrite (s : Sink) : Bool × Sink :=
  if !s.outActive || !s.alive then (false, s)
  else if !s.room then (false, { s with outActive := false })
  else (true, s)

def write (s : Sink) (m : Msg) : Bool × Sink :=
  match s.checkWrite with
  | (false, s) => (false, s)
  | (true, s) =>
    (true, { s with
      queue := s.queue.write m m.flags.more
      more := by
        intro m' hm'
        rcases Channel.mem_unfinished_write hm' with hm' | ⟨rfl, hmore⟩
        · exact s.more m' hm'
        · exact hmore })

/-- The assertion that the parts taken back are to be continued is the field `more`. -/
def rollback (s : Sink) : Sink :=
  { s with queue := { s.queue with unfinished := [] }, more := nil_more }

def flush (s : Sink) : Sink := { s with queue := s.queue.flush, more := s.more }

end Sink

structure Outpipe (Pipe : Type) where
  pipe : Pipe
  active : Bool

/-- `rawOption` is the field of the options, which is never reset. -/
structure Router (Pipe : Type) where
  queues : FairQueues.System Pipe := {}
  sinks : Pipe → Sink := fun _ => {}
  routingId : Pipe → Blob := fun _ => []
  outpipes : AList (fun _ : Blob => Outpipe Pipe) := ∅
  anonymousPipes : List Pipe := []
  nextIntegralRoutingId : UInt32
  prefetched : Bool := false
  prefetchedId : Msg := {}
  prefetchedMsg : Msg := {}
  routingIdSent : Bool := false
  currentIn : Option Pipe := none
  terminateCurrentIn : Bool := false
  moreIn : Bool := false
  currentOut : Option Pipe := none
  moreOut : Bool := false
  mandatory : Bool := false
  rawSocket : Bool := false
  rawOption : Bool := false
  probeRouter : Bool := false
  handover : Bool := false
  connectRoutingId : Blob := []

inductive SockOpt where
  | connectRoutingId (id : Blob)
  | raw (value : Bool)
  | mandatory (value : Bool)
  | probe (value : Bool)
  | handover (value : Bool)

/-- What `xsend` returns. -/
inductive Sent where
  | ok
  | again
  | hostUnreachable
  deriving DecidableEq, Repr

/-- What a turn of `xrecv` ends with. -/
inductive Fetched where
  | empty
  | dropped
  | part (m : Msg)
  deriving DecidableEq, Repr

def integralRoutingId (n : UInt32) : Blob := 0 :: Wire.putUint32 n.toNat

/-- The message with the routing id of a peer. -/
def idMsg (id : Blob) : Msg where
  type := if id.length ≤ V2Decoder.maxVsmSize then .vsm else .lmsg
  flags := { more := true }
  data := id

namespace Router

variable (r : Router Pipe)

def setSink (pipe : Pipe) (sink : Sink) : Router Pipe :=
  { r with sinks := update r.sinks pipe sink }

def setSource (pipe : Pipe) (source : Source) : Router Pipe :=
  { r with
    queues := { r.queues with sources := update r.queues.sources pipe source } }

def stopReading (pipe : Pipe) : Router Pipe :=
  r.setSource pipe { r.queues.sources pipe with readable := false }

def terminate (pipe : Pipe) (delay : Bool) : Router Pipe :=
  let sink := r.sinks pipe
  if sink.alive then
    (r.stopReading pipe).setSink pipe { sink.rollback with alive := false, outActive := false }
  else if (r.queues.sources pipe).readable then
    let r := if delay then r else r.stopReading pipe
    r.setSink pipe { sink.rollback with outActive := false }
  else r

def xsetsockopt : SockOpt → Router Pipe
  | .connectRoutingId id => if id = [] then r else { r with connectRoutingId := id }
  | .raw value => { r with rawSocket := value, rawOption := value || r.rawOption }
  | .mandatory value => { r with mandatory := value }
  | .probe value => { r with probeRouter := value }
  | .handover value => { r with handover := value }

/-- The insertion in `identify_peer`, which is asserted to be one. -/
def emplace (id : Blob) (outpipe : Outpipe Pipe) : Option (Router Pipe) :=
  if id ∈ r.outpipes then none else some { r with outpipes := r.outpipes.insert id outpipe }

/-- The end of `identify_peer`. -/
def adopt (pipe : Pipe) (id : Blob) : Option (Router Pipe) :=
  { r with routingId := update r.routingId pipe id }.emplace id ⟨pipe, true⟩

/-- `next_integral_routing_id++` -/
def draw : Router Pipe :=
  { r with nextIntegralRoutingId := r.nextIntegralRoutingId + 1 }

/-- The existing pipe of a routing id gets an automatic one. -/
def reassign (id : Blob) (existing : Outpipe Pipe) : Option (Router Pipe) :=
  let new := integralRoutingId r.nextIntegralRoutingId
  match { r.draw with routingId := update r.routingId existing.pipe new }.emplace new
      existing with
  | none => none
  | some r =>
    let r := { r with outpipes := r.outpipes.erase id }
    if r.currentIn = some existing.pipe then some { r with terminateCurrentIn := true }
    else some (r.terminate existing.pipe true)

/-- The routing id of a new peer is the message it has sent. -/
def identifyBy (pipe : Pipe) (m : Msg) : Option (Router Pipe × Bool) :=
  if m.data = [] then
    (r.draw.adopt pipe (integralRoutingId r.nextIntegralRoutingId)).map (·, true)
  else
    match r.outpipes.lookup m.data with
    | none => (r.adopt pipe m.data).map (·, true)
    | some existing =>
      if !r.handover then some (r, false)
      else
        match r.reassign m.data existing with
        | none => none
        | some r => (r.adopt pipe m.data).map (·, true)

def identifyPeer (pipe : Pipe) : Option (Router Pipe × Bool) :=
  if r.connectRoutingId ≠ [] then
    if r.connectRoutingId ∈ r.outpipes then none
    else ({ r with connectRoutingId := [] }.adopt pipe r.connectRoutingId).map (·, true)
  else if r.rawOption then
    (r.draw.adopt pipe (integralRoutingId r.nextIntegralRoutingId)).map (·, true)
  else
    match (r.queues.sources pipe).read with
    | (none, source) => some (r.setSource pipe source, false)
    | (some m, source) => (r.setSource pipe source).identifyBy pipe m

/-- `fq.attach` with what is left in the pipe. -/
def enqueue (pipe : Pipe) : Option (Router Pipe) :=
  (FairQueues.step r.queues (.attach pipe (r.queues.sources pipe).queue)).map fun queues =>
    { r with queues := queues }

def probe (pipe : Pipe) : Router Pipe :=
  if r.probeRouter then r.setSink pipe ((r.sinks pipe).write {}).2.flush else r

def xattachPipe (pipe : Pipe) : Option (Router Pipe) :=
  match (r.probe pipe).identifyPeer pipe with
  | none => none
  | some (r, true) => r.enqueue pipe
  | some (r, false) => some { r with anonymousPipes := pipe :: r.anonymousPipes }

def xpipeTerminated (pipe : Pipe) : Option (Router Pipe) :=
  if pipe ∈ r.anonymousPipes then
    some { r with anonymousPipes := r.anonymousPipes.erase pipe }
  else if r.routingId pipe ∈ r.outpipes then
    (FairQueues.step r.queues (.terminated pipe)).map fun queues =>
      { r with
        outpipes := r.outpipes.erase (r.routingId pipe)
        queues := queues
        sinks := update r.sinks pipe (r.sinks pipe).rollback
        currentOut := if r.currentOut = some pipe then none else r.currentOut }
  else none

/-- `process_activate_read` and `xread_activated` -/
def activateRead (pipe : Pipe) : Option (Router Pipe) :=
  let source := r.queues.sources pipe
  if source.inActive = false ∧ source.readable = true then
    if pipe ∈ r.anonymousPipes then
      match (r.setSource pipe { source with inActive := true }).identifyPeer pipe with
      | none => none
      | some (r, true) => { r with anonymousPipes := r.anonymousPipes.erase pipe }.enqueue pipe
      | some (r, false) => some r
    else
      (FairQueues.step r.queues (.activateRead pipe)).map fun queues => { r with queues := queues }
  else some r

/-- `process_activate_write` and `xwrite_activated` -/
def activateWrite (pipe : Pipe) : Option (Router Pipe) :=
  let sink := r.sinks pipe
  if sink.outActive = false ∧ sink.alive = true then
    match r.outpipes.entries.find? fun entry => decide (entry.2.pipe = pipe) with
    | none => none
    | some entry =>
      if entry.2.active then none
      else
        some { r.setSink pipe { sink with outActive := true } with
          outpipes := r.outpipes.insert entry.1 { entry.2 with active := true } }
  else some r

/-- `xsend` for the first part of a message, which is the routing id. -/
def address (m : Msg) : Router Pipe × Sent :=
  match r.outpipes.lookup m.data with
  | none =>
    if r.mandatory then (r, .hostUnreachable) else ({ r with moreOut := true }, .ok)
  | some outpipe =>
    match (r.sinks outpipe.pipe).checkWrite with
    | (true, sink) =>
      ({ r.setSink outpipe.pipe sink with moreOut := true, currentOut := some outpipe.pipe }, .ok)
    | (false, sink) =>
      let r := { r.setSink outpipe.pipe sink with
        outpipes := r.outpipes.insert m.data { outpipe with active := false } }
      if r.mandatory then (r, if sink.room then .hostUnreachable else .again)
      else ({ r with moreOut := true }, .ok)

/-- `xsend` for a part that goes to the current pipe. -/
def push (pipe : Pipe) (m : Msg) : Router Pipe :=
  if r.rawSocket && m.data.isEmpty then { r.terminate pipe false with currentOut := none }
  else
    match (r.sinks pipe).write m with
    | (false, sink) => { r.setSink pipe sink.rollback with currentOut := none }
    | (true, sink) =>
      if r.moreOut then r.setSink pipe sink
      else { r.setSink pipe sink.flush with currentOut := none }

def xsend (m : Msg) : Option (Router Pipe × Sent) :=
  if !r.moreOut then
    if r.currentOut.isSome then none
    else if m.flags.more then some (r.address m)
    else some (r, .ok)
  else
    let m := if r.rawOption then { m with flags := { m.flags with more := false } } else m
    let r := { r with moreOut := m.flags.more }
    match r.currentOut with
    | none => some (r, .ok)
    | some pipe => some (r.push pipe m, .ok)

def rollback : Router Pipe :=
  match r.currentOut with
  | none => r
  | some pipe =>
    { r.setSink pipe (r.sinks pipe).rollback with currentOut := none, moreOut := false }

def recvpipe : Option (Router Pipe × Option (Pipe × Msg)) :=
  (r.queues.fq.recvpipe r.queues.sources).map fun received =>
    ({ r with queues := r.queues.received received }, received.part)

/-- `xrecv` after the last part of a message. -/
def finish : Option (Router Pipe) :=
  if r.terminateCurrentIn then
    match r.currentIn with
    | none => none
    | some pipe =>
      some { r.terminate pipe true with terminateCurrentIn := false, currentIn := none }
  else some { r with currentIn := none }

def returned (m : Msg) : Option (Router Pipe × Fetched) :=
  if m.flags.more then some ({ r with moreIn := true }, .part m)
  else ({ r with moreIn := false }.finish).map (·, .part m)

/-- A turn of `xrecv`. -/
def fetch : Option (Router Pipe × Fetched) :=
  if r.prefetched then
    if !r.routingIdSent then { r with routingIdSent := true }.returned r.prefetchedId
    else { r with prefetched := false }.returned r.prefetchedMsg
  else
    match r.recvpipe with
    | none => none
    | some (r, none) => some (r, .empty)
    | some (r, some (pipe, m)) =>
      if m.flags.routingId then some (r, .dropped)
      else if r.moreIn then r.returned m
      else
        some ({ r with
          prefetchedMsg := m, prefetched := true, currentIn := some pipe, routingIdSent := true },
          .part (idMsg (r.routingId pipe)))

/-- A turn of `xhas_in`, without an answer if it has to go on. -/
def look : Option (Router Pipe × Option Bool) :=
  if r.moreIn || r.prefetched then some (r, some true)
  else
    match r.recvpipe with
    | none => none
    | some (r, none) => some (r, some false)
    | some (r, some (pipe, m)) =>
      if m.flags.routingId then some (r, none)
      else
        some ({ r with
          prefetchedMsg := m, prefetchedId := idMsg (r.routingId pipe), prefetched := true
          routingIdSent := false, currentIn := some pipe }, some true)

/-- A new pipe comes with what the peer has written to it. -/
def connect (pipe : Pipe) (items : List Msg) : Option (Router Pipe) :=
  ((r.setSource pipe { queue := items }).setSink pipe {}).xattachPipe pipe

def deliver (pipe : Pipe) (items : List Msg) : Option (Router Pipe) :=
  (FairQueues.step r.queues (.deliver pipe items)).map fun queues => { r with queues := queues }

/-- The pipe leaves the state `active`. It may be read up to the delimiter, and what was not
finished may be taken back. -/
def close (pipe : Pipe) (reads takenBack : Bool) : Router Pipe :=
  let r := if reads then r else r.stopReading pipe
  let sink := if takenBack then (r.sinks pipe).rollback else r.sinks pipe
  r.setSink pipe { sink with alive := false }

def setRoom (pipe : Pipe) (room : Bool) : Router Pipe :=
  r.setSink pipe { r.sinks pipe with room := room }

end Router

end Uzmq.Routers
