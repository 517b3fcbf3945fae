import Uzmq.YPipeChunks

/-!
# Mailboxes

`mailbox_t` with any number of threads that send and one that receives. The steps of the
pipe are those of `ypipe_t`; taking and releasing the mutex, and each operation on the
signaler, are steps of their own. `signals` is the counter of the signaler.

Commands carry the number of the thread that sent them, which the code does not record;
`issued` are the commands for which `send` was called.
-/

namespace Uzmq.Mailboxes

open YPipes YPipeChunks YQueues Runs

inductive SenderPc (α : Type) where
  | idle
  /-- Before the mutex is taken. -/
  | locking (cmd : α)
  | writing (cmd : α)
  | written
  | flushing
  /-- `ok` is what `flush` has returned. -/
  | unlocking (ok : Bool)
  /-- The reader was asleep: before `signaler.send`. -/
  | signalling
  deriving DecidableEq

inductive ReceiverPc where
  | idle
  /-- The first `read`, of an active mailbox. -/
  | reading
  | waiting
  /-- Before `signaler.recv_failable`. -/
  | receiving
  /-- Signals that were taken along have to be put back. -/
  | restoring (extra : Nat)
  /-- The `read` after a signal. -/
  | rereading
  deriving DecidableEq

structure Mailbox (n : Nat) (α : Type) where
  cpipe : ChunkPipe n (Nat × α)
  signals : Nat := 0
  sync : Option Nat := none
  active : Bool := false
  sender : Nat → SenderPc α := fun _ => .idle
  receiver : ReceiverPc := .idle
  failed : Bool := false
  issued : Nat → List α := fun _ => []

variable {n : Nat} {α : Type}

/-- What `flush` returns when it leaves `before`. -/
def flushed (before after : WriterPc (Nat × α)) : Option Bool :=
  match before, after with
  | .flushing, .idle => some true
  | .advancing ok _, .idle => some ok
  | _, _ => none

/-- Where a thread that sends is after a step of `write`. -/
def afterWrite (cmd : α) (after : WriterPc (Nat × α)) : SenderPc α :=
  match after with
  | .idle => .written
  | _ => .writing cmd

def afterFlush (before after : WriterPc (Nat × α)) : SenderPc α :=
  match flushed before after with
  | some ok => .unlocking ok
  | none => .flushing

/-- What `read` returns when it leaves `before`. -/
def fetched (before after : ReaderPc (Nat × α)) : Option Bool :=
  match before, after with
  | .testing _, .idle => some false
  | .popping _, .idle => some true
  | _, _ => none

namespace Mailbox

variable (m : Mailbox n α)

def setSender (k : Nat) (pc : SenderPc α) : Mailbox n α :=
  { m with sender := Function.update m.sender k pc }

/-- Make a step of the pipe, and go on as `f` says. -/
def usePipe (i : YPipes.Input (Nat × α))
    (f : ChunkPipe n (Nat × α) → Mailbox n α → Mailbox n α) : Option (Mailbox n α) :=
  (YPipes.step m.cpipe i).map fun p => f p { m with cpipe := p }

def senderStep (k chunk : Nat) : Option (Mailbox n α) :=
  match m.sender k with
  | .idle => none
  | .locking cmd =>
    match m.sync with
    | some _ => none
    | none => m.usePipe (.write (k, cmd) false) fun _ m =>
        { m with sync := some k }.setSender k (.writing cmd)
  | .writing cmd => m.usePipe (.writer chunk) fun p m => m.setSender k (afterWrite cmd p.writer)
  | .written => m.usePipe .flush fun _ m => m.setSender k .flushing
  | .flushing => m.usePipe (.writer chunk) fun p m' =>
      m'.setSender k (afterFlush m.cpipe.writer p.writer)
  | .unlocking ok =>
    some ({ m with sync := none }.setSender k (if ok then .idle else .signalling))
  | .signalling => some ({ m with signals := m.signals + 1 }.setSender k .idle)

/-- A signal has been received: switch into active state and get a command. -/
def activate : Option (Mailbox n α) :=
  m.usePipe .read fun _ m => { m with active := true, receiver := .rereading }

/-- `expired` says that `signaler.wait` returns without a signal. -/
def receiverStep (expired : Bool) : Option (Mailbox n α) :=
  match m.receiver with
  | .idle => none
  | .reading => m.usePipe .reader fun p m' =>
      match fetched m.cpipe.reader p.reader with
      | some true => { m' with receiver := .idle }
      | some false => { m' with active := false, receiver := .waiting }
      | none => m'
  | .waiting =>
    if expired then some { m with receiver := .idle }
    else if 0 < m.signals then some { m with receiver := .receiving } else none
  | .receiving =>
    -- Reading the counter of the signaler sets it to zero.
    if m.signals = 0 then some { m with receiver := .idle }
    else if 1 < m.signals then
      some { m with signals := 0, receiver := .restoring (m.signals - 1) }
    else { m with signals := 0 }.activate
  | .restoring extra => { m with signals := m.signals + extra }.activate
  | .rereading => m.usePipe .reader fun p m' =>
      match fetched m.cpipe.reader p.reader with
      | some true => { m' with receiver := .idle }
      | some false => { m' with failed := true }
      | none => m'

end Mailbox

inductive Input (α : Type) where
  | send (k : Nat) (cmd : α)
  /-- The next step of a thread that sends. -/
  | sender (k chunk : Nat)
  | recv
  | receiver (expired : Bool)

def step (m : Mailbox n α) (input : Input α) : Option (Mailbox n α) :=
  if m.failed then none
  else
    match input with
    | .send k cmd =>
      match m.sender k with
      | .idle =>
        some ({ m with issued := Function.update m.issued k (m.issued k ++ [cmd]) }.setSender k
          (.locking cmd))
      | _ => none
    | .sender k chunk => m.senderStep k chunk
    | .recv =>
      match m.receiver with
      | .idle =>
        if m.active then m.usePipe .read fun _ m => { m with receiver := .reading }
        else some { m with receiver := .waiting }
      | _ => none
    | .receiver expired => m.receiverStep expired

/-- The constructor reads once, so that the pipe is asleep. -/
def Initial (m : Mailbox n α) : Prop :=
  ∃ p, YPipeChunks.Initial p ∧
    ∃ q ∈ exec Always YPipes.step p [.read, .reader, .reader, .reader], m = { cpipe := q }

end Uzmq.Mailboxes
