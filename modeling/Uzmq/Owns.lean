import Uzmq.Lanes
import Uzmq.Runs

/-!
# Ownership trees

`own_t` and the commands by which owners and their children agree on shutting down. Objects live
in threads. Commands are in transit between two threads in the order in which they were sent.

`sent_seqnum` has 32 bits and `processed_seqnum` has 64. The number of termination acks is an
`int`. The counted commands that are still to be sent, the senders of commands and the objects
that were deallocated are recorded; the code does not know them. Objects are told apart even after
they are gone.
-/

namespace Uzmq.Owns

open Function

variable {Object Thread : Type} [LinearOrder Object] [DecidableEq Thread]

/-- The commands of the protocol. `attach`, `bind` and `inproc_connected` are counted. -/
inductive Command (Object : Type) where
  | plug
  | own (object : Object)
  | termReq (object : Object)
  | term (linger : Int)
  | termAck
  | counted
  deriving DecidableEq

structure Packet (Object Thread : Type) where
  source : Option Object
  sender : Thread
  receiver : Thread
  destination : Object
  command : Command Object
  deriving DecidableEq

/-- Objects are constructed, and then started by their owner unless they are roots. -/
inductive Life where
  | unborn
  | constructed
  | started
  | freed
  deriving DecidableEq, Repr

structure Own (Object : Type) where
  life : Life := .unborn
  terminating : Bool := false
  sentSeqnum : UInt32 := 0
  processedSeqnum : UInt64 := 0
  owner : Option Object := none
  owned : List Object := []
  termAcks : Nat := 0
  deriving DecidableEq

@[ext]
structure System (Object Thread : Type) where
  thread : Object → Thread
  linger : Object → Int
  objects : Object → Own Object := fun _ => {}
  network : List (Packet Object Thread) := []
  owed : Object → Nat := fun _ => 0
  freed : List Object := []

/-- One more than the greatest `int`. -/
def intBound : Nat := 2 ^ 31

/-- `std::set::insert` -/
def insertOwned (x : Object) (owned : List Object) : List Object :=
  if x ∈ owned then owned else owned.orderedInsert (· ≤ ·) x

namespace System

variable (s : System Object Thread)

def setObject (x : Object) (o : Own Object) : System Object Thread :=
  { s with objects := update s.objects x o }

def send (source destination : Object) (command : Command Object) : System Object Thread :=
  { s with
    network := s.network ++
      [⟨some source, s.thread source, s.thread destination, destination, command⟩] }

def incSeqnum (x : Object) : System Object Thread :=
  s.setObject x { s.objects x with sentSeqnum := (s.objects x).sentSeqnum + 1 }

def sendPlug (source destination : Object) : System Object Thread :=
  (s.incSeqnum destination).send source destination .plug

def sendOwn (source destination object : Object) : System Object Thread :=
  (s.incSeqnum destination).send source destination (.own object)

/-- `delete this` -/
def processDestroy (x : Object) : System Object Thread :=
  { s.setObject x { s.objects x with life := .freed } with freed := s.freed ++ [x] }

def checkTermAcks (x : Object) : Option (System Object Thread) :=
  let o := s.objects x
  if o.terminating && o.processedSeqnum == o.sentSeqnum.toUInt64 && o.termAcks == 0 then
    if o.owned ≠ [] then none
    else
      match o.owner with
      | none => some (s.processDestroy x)
      | some owner => some ((s.send x owner .termAck).processDestroy x)
  else some s

/-- Nothing is defined if the sum does not fit. -/
def registerTermAcks (x : Object) (count : Nat) : Option (System Object Thread) :=
  if (s.objects x).termAcks + count < intBound then
    some (s.setObject x { s.objects x with termAcks := (s.objects x).termAcks + count })
  else none

def processSeqnum (x : Object) : Option (System Object Thread) :=
  (s.setObject x
    { s.objects x with processedSeqnum := (s.objects x).processedSeqnum + 1 }).checkTermAcks x

def setOwner (x owner : Object) : Option (System Object Thread) :=
  if (s.objects x).owner.isSome then none
  else some (s.setObject x { s.objects x with life := .started, owner := some owner })

def launchChild (x object : Object) : Option (System Object Thread) :=
  (s.setOwner object x).map fun s => (s.sendPlug x object).sendOwn x x object

def processTermReq (x object : Object) : Option (System Object Thread) :=
  let o := s.objects x
  if o.terminating then some s
  else if object ∉ o.owned then some s
  else
    ((s.setObject x { o with owned := o.owned.erase object }).registerTermAcks x 1).map
      (·.send x object (.term (s.linger x)))

def processOwn (x object : Object) : Option (System Object Thread) :=
  let o := s.objects x
  if o.terminating then (s.registerTermAcks x 1).map (·.send x object (.term 0))
  else some (s.setObject x { o with owned := insertOwned object o.owned })

def processTerm (x : Object) (linger : Int) : Option (System Object Thread) :=
  let o := s.objects x
  if o.terminating then none
  else
    let s := o.owned.foldl (fun s object => s.send x object (.term linger)) s
    (s.registerTermAcks x o.owned.length).bind fun s =>
      (s.setObject x { s.objects x with owned := [], terminating := true }).checkTermAcks x

def terminate (x : Object) : Option (System Object Thread) :=
  let o := s.objects x
  if o.terminating then some s
  else
    match o.owner with
    | none => s.processTerm x (s.linger x)
    | some owner => some (s.send x owner (.termReq x))

def processTermAck (x : Object) : Option (System Object Thread) :=
  let o := s.objects x
  if o.termAcks = 0 then none
  else (s.setObject x { o with termAcks := o.termAcks - 1 }).checkTermAcks x

/-- What the handlers of derived classes do for `plug` and counted commands is left out. -/
def processCommand (x : Object) : Command Object → Option (System Object Thread)
  | .plug => s.processSeqnum x
  | .own object => (s.processOwn x object).bind (·.processSeqnum x)
  | .termReq object => s.processTermReq x object
  | .term linger => s.processTerm x linger
  | .termAck => s.processTermAck x
  | .counted => s.processSeqnum x

def allocated (x : Object) : Bool :=
  (s.objects x).life == .constructed || (s.objects x).life == .started

/-- The oldest command of a pair of threads. -/
def deliver (sender receiver : Thread) : Option (System Object Thread) :=
  match Lanes.takeFirst (fun k => k.sender = sender ∧ k.receiver = receiver) s.network with
  | none => none
  | some (k, network) =>
    if s.allocated k.destination then
      { s with network := network }.processCommand k.destination k.command
    else none

end System

inductive Input (Object Thread : Type) where
  | root (x : Object)
  | construct (x : Object)
  | incSeqnum (x : Object)
  | counted (sender : Thread) (x : Object)
  | launchChild (x object : Object)
  | terminate (x : Object)
  | termChild (x object : Object)
  | deliver (sender receiver : Thread)

def step (s : System Object Thread) : Input Object Thread → Option (System Object Thread)
  | .root x => some (s.setObject x { life := .started })
  | .construct x => some (s.setObject x { life := .constructed })
  | .incSeqnum x =>
    some { s.incSeqnum x with owed := update s.owed x (s.owed x + 1) }
  | .counted sender x =>
    some { s with
      network := s.network ++ [⟨none, sender, s.thread x, x, .counted⟩]
      owed := update s.owed x (s.owed x - 1) }
  | .launchChild x object => s.launchChild x object
  | .terminate x => s.terminate x
  | .termChild x object => s.processTermReq x object
  | .deliver sender receiver => s.deliver sender receiver

section Counting

def Command.isCounted : Command Object → Bool
  | .plug => true
  | .own _ => true
  | .counted => true
  | _ => false

namespace System

/-- The commands counted by `sent_seqnum` that are still to be processed. -/
def outstanding (s : System Object Thread) (x : Object) : Nat :=
  s.owed x + s.network.countP fun k => k.destination = x && k.command.isCounted

/-- The children on their way to their owner. -/
def adopting (s : System Object Thread) (x : Object) : List Object :=
  s.network.filterMap fun k =>
    match k.command with
    | .own object => if k.destination = x then some object else none
    | _ => none

/-- The children that are not known to be gone. -/
def charges (s : System Object Thread) (x : Object) : Nat :=
  (s.adopting x).length + (s.objects x).owned.length + (s.objects x).termAcks

end System

end Counting

/-- Objects are used after they were constructed and before they are deallocated; a child is
launched once, before it does anything; and a counted command is sent after `inc_seqnum`. -/
def Allowed (s : System Object Thread) : Input Object Thread → Prop
  | .root x => (s.objects x).life = .unborn
  | .construct x => (s.objects x).life = .unborn
  | .incSeqnum x => s.allocated x = true
  | .counted _ x => 0 < s.owed x
  | .launchChild x object =>
    (s.objects x).life = .started ∧ (s.objects object).life = .constructed
  | .terminate x => (s.objects x).life = .started
  | .termChild x _ => (s.objects x).life = .started
  | .deliver sender receiver => ∃ k ∈ s.network, k.sender = sender ∧ k.receiver = receiver

/-- Fewer than `2 ^ 32` counted commands are to be processed by one object, and fewer than
`2 ^ 31` children are known to it. -/
def Fits (s : System Object Thread) : Input Object Thread → Prop
  | .incSeqnum x => s.outstanding x + 1 < 2 ^ 32
  | .launchChild x object =>
    s.outstanding x + 1 < 2 ^ 32 ∧ s.outstanding object + 1 < 2 ^ 32 ∧ s.charges x + 1 < intBound
  | _ => True

def Guard (s : System Object Thread) (input : Input Object Thread) : Prop :=
  Allowed s input ∧ Fits s input

def Initial (s : System Object Thread) : Prop :=
  ∃ thread linger, s = { thread := thread, linger := linger }

section Decidability

instance (s : System Object Thread) (input : Input Object Thread) :
    Decidable (Allowed s input) := by
  cases input <;> unfold Allowed <;> infer_instance

instance (s : System Object Thread) (input : Input Object Thread) : Decidable (Fits s input) := by
  cases input <;> unfold Fits <;> infer_instance

instance (s : System Object Thread) (input : Input Object Thread) : Decidable (Guard s input) :=
  inferInstanceAs (Decidable (_ ∧ _))

end Decidability

/-- No assertion fails in the next step, commands go to objects that are still there, and an object
is deallocated once, after its children and after all counted commands were processed. -/
structure Orderly (s : System Object Thread) : Prop where
  total : ∀ i, Guard s i → ∃ t, step s i = some t
  destinations : ∀ k ∈ s.network, s.allocated k.destination = true
  once : s.freed.Nodup
  children : ∀ x ∈ s.freed, ∀ y, (s.objects y).owner = some x → y ∈ s.freed
  processed : ∀ x ∈ s.freed, s.outstanding x = 0

end Uzmq.Owns
