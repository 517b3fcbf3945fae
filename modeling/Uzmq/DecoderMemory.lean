import Uzmq.Blocks
import Uzmq.Runs
import Uzmq.V2Decoder

/-!
# The v2 decoder and its memory

`decoder_base_t::decode` moves bytes between blocks of memory: from the receive buffer to `tmpbuf`,
to the inner storage of a small message or to the content of a large one. A body that lies
completely in the receive buffer stays there, and the message refers to it; a large body that is
not complete is read straight into the message. The buffer has a counter of the messages that
refer to it, and `shared_message_memory_allocator` takes a new buffer if the counter is not zero.

Messages that have been passed on are closed by their owners at any time. The model keeps the
names of blocks apart for ever, and does not run out of memory.
-/

namespace Uzmq.DecoderMemory

open Function (update)
open Message (Flags)
open Wire (getUint32)
open V2Encoder (moreFlag largeFlag commandFlag keyFlag)
open V2Decoder (Rc maxVsmSize)

inductive Block where
  | tmpbuf
  | vsm
  | content (id : Nat)
  | buffer (id : Nat)
  deriving DecidableEq

structure Ptr where
  block : Block
  offset : Nat
  deriving DecidableEq

def Ptr.add (p : Ptr) (n : Nat) : Ptr := { p with offset := p.offset + n }

abbrev Memory : Type := Blocks Block UInt8

def load (m : Memory) (p : Ptr) (n : Nat) : List UInt8 := m.load p.block p.offset n

def memcpy (m : Memory) (destination source : Ptr) (n : Nat) : Memory :=
  m.fill destination.block destination.offset (load m source n)

/-- Where a message has its body. A message on a receive buffer has the buffer as the `hint` of
its free function. -/
inductive Storage where
  | vsm
  | lmsg (content : Nat)
  | zclmsg (hint : Nat) (data : Ptr)
  deriving DecidableEq

/-- The address of the body of the message that the decoder holds. -/
def Storage.data : Storage → Ptr
  | .vsm => ⟨.vsm, 0⟩
  | .lmsg content => ⟨.content content, 0⟩
  | .zclmsg _ data => data

structure Message where
  storage : Storage := .vsm
  size : Nat := 0
  flags : Flags := {}
  deriving DecidableEq

/-- The decoder and its allocator. `refs` is the counter at the head of each buffer, and blocks
from `fresh` on have not been allocated. -/
structure Decoder where
  memory : Memory
  next : V2Decoder.Next
  readPos : Ptr
  toRead : Nat
  msgFlags : Flags
  maxmsgsize : Int
  inProgress : Message
  buf : Nat
  bufsize : Nat
  maxSize : Nat
  refs : Nat → Nat
  fresh : Nat

namespace Decoder

variable (d : Decoder)

def nextStep (readPos : Ptr) (toRead : Nat) (next : V2Decoder.Next) : Decoder :=
  { d with readPos, toRead, next }

/-- `shared_message_memory_allocator::allocate`: the decoder's reference to its buffer is dropped,
and the buffer is used again if it was the last one. -/
def allocate : Decoder :=
  if d.refs d.buf - 1 = 0 then
    { d with refs := update d.refs d.buf 1, bufsize := d.maxSize }
  else
    { d with
      refs := update (update d.refs d.buf (d.refs d.buf - 1)) d.fresh 1
      buf := d.fresh
      fresh := d.fresh + 1
      bufsize := d.maxSize }

def getBuffer : Decoder × Ptr × Nat :=
  let d := d.allocate
  if d.bufsize ≤ d.toRead then (d, d.readPos, d.toRead) else (d, ⟨.buffer d.buf, 0⟩, d.bufsize)

def resizeBuffer (size : Nat) : Decoder := { d with bufsize := size }

def decRef (hint : Nat) : Decoder :=
  { d with refs := update d.refs hint (d.refs hint - 1) }

def incRef : Decoder :=
  { d with refs := update d.refs d.buf (d.refs d.buf + 1) }

/-- `in_progress.close ()`. -/
def closeInProgress : Decoder :=
  match d.inProgress.storage with
  | .zclmsg hint _ => { d.decRef hint with inProgress := {} }
  | _ => { d with inProgress := {} }

/-- `in_progress.init_size`. -/
def initSize (size : Nat) : Decoder :=
  if size ≤ maxVsmSize then { d with inProgress := { storage := .vsm, size } }
  else { d with inProgress := { storage := .lmsg d.fresh, size }, fresh := d.fresh + 1 }

/-- `in_progress.init` with the storage that the receive buffer provides. Small bodies are
copied. -/
def initBuffer (readFrom : Ptr) (size : Nat) : Decoder :=
  if size < maxVsmSize then
    let d := d.initSize size
    { d with memory := memcpy d.memory ⟨.vsm, 0⟩ readFrom size }
  else { d.incRef with inProgress := { storage := .zclmsg d.buf readFrom, size } }

def flagsReady : Rc × Decoder :=
  let flags := d.memory .tmpbuf 0
  let d := { d with msgFlags :=
    { more := flags &&& moreFlag != 0, command := flags &&& commandFlag != 0 } }
  if flags &&& largeFlag != 0 then
    if flags &&& keyFlag != 0 then (.zero, d.nextStep ⟨.tmpbuf, 0⟩ 4 .keySizeReady)
    else (.zero, d.nextStep ⟨.tmpbuf, 0⟩ 4 .fourByteSizeReady)
  else (.zero, d.nextStep ⟨.tmpbuf, 0⟩ 1 .oneByteSizeReady)

/-- `size_ready`. The current address is compared with the end of the receive buffer; in any other
block this is undefined. -/
def sizeReady (size : Nat) (readFrom : Ptr) : Option (Rc × Decoder) :=
  if 0 ≤ d.maxmsgsize ∧ d.maxmsgsize < size then some (.emsgsize, d)
  else if readFrom.block = .buffer d.buf then
    let d := d.closeInProgress
    let d := if d.bufsize < readFrom.offset + size then d.initSize size
      else d.initBuffer readFrom size
    let d := { d with inProgress := { d.inProgress with flags := d.msgFlags } }
    some (.zero, d.nextStep d.inProgress.storage.data d.inProgress.size .messageReady)
  else none

def messageReady : Rc × Decoder :=
  (.message, d.nextStep ⟨.tmpbuf, 0⟩ 2 .flagsReady)

def act (readFrom : Ptr) : Option (Rc × Decoder) :=
  match d.next with
  | .flagsReady => some d.flagsReady
  | .oneByteSizeReady => d.sizeReady (d.memory .tmpbuf 0).toNat readFrom
  | .keySizeReady => d.sizeReady (getUint32 (load d.memory ⟨.tmpbuf, 0⟩ 4) * 8) readFrom
  | .fourByteSizeReady => d.sizeReady (getUint32 (load d.memory ⟨.tmpbuf, 0⟩ 4)) readFrom
  | .messageReady => some d.messageReady

/-- `while (to_read == 0)`. -/
def settle (readFrom : Ptr) : Nat → Decoder → Option (Rc × Decoder)
  | 0, d => some (.zero, d)
  | fuel + 1, d =>
    if d.toRead = 0 then
      match d.act readFrom with
      | some (.zero, d) => settle readFrom fuel d
      | r => r
    else some (.zero, d)

/-- One turn of the copying loop: bytes that are at `read_pos` already are not copied. -/
def copy (here : Ptr) (toCopy : Nat) : Decoder :=
  { d with
    memory := if d.readPos = here then d.memory else memcpy d.memory d.readPos here toCopy
    readPos := d.readPos.add toCopy
    toRead := d.toRead - toCopy }

def decodeLoop (data : Ptr) (size : Nat) : Nat → Decoder → Nat → Option (Rc × Decoder × Nat)
  | 0, d, bytesUsed => some (.zero, d, bytesUsed)
  | fuel + 1, d, bytesUsed =>
    if bytesUsed < size then
      let toCopy := min d.toRead (size - bytesUsed)
      let d := d.copy (data.add bytesUsed) toCopy
      match settle (data.add (bytesUsed + toCopy)) 3 d with
      | none => none
      | some (.zero, d) => decodeLoop data size fuel d (bytesUsed + toCopy)
      | some (rc, d) => some (rc, d, bytesUsed + toCopy)
    else some (.zero, d, bytesUsed)

/-- `decode`, with the number of bytes used. The assertion is `size_ <= to_read`. -/
def decode (data : Ptr) (size : Nat) : Option (Rc × Decoder × Nat) :=
  if data = d.readPos then
    if size ≤ d.toRead then
      let d := { d with readPos := d.readPos.add size, toRead := d.toRead - size }
      (settle (data.add size) 3 d).map fun r => (r.1, r.2, size)
    else none
  else decodeLoop data size (size + 1) d 0

/-- A new decoder with a buffer. The memory is not initialised. -/
def new (memory : Memory) (bufsize : Nat) (maxmsgsize : Int) : Decoder where
  memory
  next := .flagsReady
  readPos := ⟨.tmpbuf, 0⟩
  toRead := 2
  msgFlags := {}
  maxmsgsize
  inProgress := {}
  buf := 0
  bufsize
  maxSize := bufsize
  refs := update (fun _ => 0) 0 1
  fresh := 1

end Decoder

/-- The body of a message that has been passed on. -/
inductive Content where
  | inner (bytes : List UInt8)
  | block (id : Nat)
  | shared (hint : Nat) (data : Ptr)
  deriving DecidableEq

structure Held where
  content : Content
  size : Nat
  flags : Flags
  deriving DecidableEq

def Held.body (memory : Memory) (h : Held) : List UInt8 :=
  match h.content with
  | .inner bytes => bytes
  | .block id => load memory ⟨.content id, 0⟩ h.size
  | .shared _ data => load memory data h.size

/-- The message in progress is copied out, with the bytes of its inner storage. -/
def Decoder.taken (d : Decoder) : Held where
  content := match d.inProgress.storage with
    | .vsm => .inner (load d.memory ⟨.vsm, 0⟩ d.inProgress.size)
    | .lmsg content => .block content
    | .zclmsg hint data => .shared hint data
  size := d.inProgress.size
  flags := d.inProgress.flags

/-- The engine's input, and the messages it has passed on that are still open. `read`, `seen`,
`processed` and `failed` record the bytes read, the messages with the bodies they had, the bytes
decoded, and where decoding failed. -/
structure Engine where
  decoder : Decoder
  inpos : Ptr
  insize : Nat
  held : List (Option Held)
  read : List UInt8
  seen : List (List UInt8 × Flags)
  processed : Nat
  failed : Option Nat

namespace Engine

/-- The session takes the message, and the decoder's message is initialised. -/
def pushMsg (e : Engine) : Engine :=
  { e with
    decoder := { e.decoder with inProgress := {} }
    held := e.held ++ [some e.decoder.taken]
    seen := e.seen ++ [(e.decoder.taken.body e.decoder.memory, e.decoder.inProgress.flags)] }

/-- `while (insize > 0)` of `in_event`. The assertion is `processed <= insize`. -/
def inEventLoop : Nat → Engine → Option Engine
  | 0, e => some e
  | fuel + 1, e =>
    if e.insize = 0 then some e
    else
      match e.decoder.decode e.inpos e.insize with
      | none => none
      | some (rc, decoder, processed) =>
        if e.insize < processed then none
        else
          let e := { e with
            decoder
            inpos := e.inpos.add processed
            insize := e.insize - processed
            processed := e.processed + processed }
          match rc with
          | .zero => some e
          | .emsgsize => some { e with failed := some e.processed }
          | .message => inEventLoop fuel e.pushMsg

/-- `in_event`: the buffer is offered, bytes are read into it, and it is resized to them. -/
def inEvent (e : Engine) (bytes : List UInt8) : Option Engine :=
  let (decoder, inpos, bufsize) := e.decoder.getBuffer
  if bytes.length ≤ bufsize then
    let decoder := { decoder with
      memory := decoder.memory.fill inpos.block inpos.offset bytes }
    inEventLoop (bytes.length + 1) { e with
      decoder := decoder.resizeBuffer bytes.length
      inpos
      insize := bytes.length
      read := e.read ++ bytes }
  else none

/-- The owner of a message closes it. -/
def close (e : Engine) (k : Nat) (h : Held) : Engine :=
  { e with
    held := e.held.set k none
    decoder := match h.content with
      | .shared hint _ => e.decoder.decRef hint
      | _ => e.decoder }

/-- The number of bytes that `get_buffer` offers. -/
def offered (e : Engine) : Nat := e.decoder.getBuffer.2.2

end Engine

inductive Input where
  | read (bytes : List UInt8)
  | close (k : Nat)

def step (e : Engine) : Input → Option Engine
  | .read bytes =>
    if e.failed = none ∧ e.insize = 0 ∧ bytes ≠ [] then e.inEvent bytes else none
  | .close k =>
    match e.held[k]? with
    | some (some h) => some (e.close k h)
    | _ => none

def inBatchSize : Nat := 8192

structure Initial (maxmsgsize : Int) (e : Engine) : Prop where
  decoder : ∃ memory, e.decoder = .new memory inBatchSize maxmsgsize
  insize : e.insize = 0
  held : e.held = []
  read : e.read = []
  seen : e.seen = []
  processed : e.processed = 0
  failed : e.failed = none

/-- The engine has read the bytes until there were no more or decoding failed. -/
def Cuts (e : Engine) (bytes : List UInt8) : Prop :=
  e.read <+: bytes ∧ (e.failed = none → e.read = bytes)

/-- Every read that is offered succeeds, without a failed assertion, and open messages have the
bodies with which they were passed on. -/
structure Sound (e : Engine) : Prop where
  reads : ∀ bytes, e.failed = none → bytes ≠ [] → bytes.length ≤ e.offered →
    ∃ t, step e (.read bytes) = some t
  bodies : ∀ (k : Nat) (h : Held), e.held[k]? = some (some h) →
    e.seen[k]? = some (h.body e.decoder.memory, h.flags)

end Uzmq.DecoderMemory
