import Mathlib

/-!
# Messages

The part of `msg_t` the modelled code reads: the storage type, the flag bits,
the body and the id of the node a data message is for. Memory management of the
body (`content_t`, reference counts) is not represented here; a message owns its
bytes.
-/

namespace Uzmq.Message

inductive MsgType where
  | vsm
  | lmsg
  | delimiter
  | cmsg
  | zclmsg
  | join
  | leave
  deriving DecidableEq, Repr

/-- The bits of the `flags` byte, `shared` left out. -/
structure Flags where
  more : Bool := false
  command : Bool := false
  netmlData : Bool := false
  netmlHotdata : Bool := false
  netmlKey : Bool := false
  credential : Bool := false
  routingId : Bool := false
  deriving DecidableEq, Repr

structure Msg where
  type : MsgType := .vsm
  flags : Flags := {}
  data : List UInt8 := []
  remoteId : Nat := 0
  deriving DecidableEq, Repr

def Msg.size (m : Msg) : Nat := m.data.length

/-- What the receiver of a message gets, wherever it is stored. -/
def Msg.content (m : Msg) : List UInt8 × Flags := (m.data, m.flags)

def Msg.isDelimiter (m : Msg) : Bool := m.type == .delimiter

def uint16Max : Nat := 65535

/-- Only long and constant messages store a node id. -/
def Msg.getRemoteId (m : Msg) : Nat :=
  match m.type with
  | .lmsg => m.remoteId
  | .cmsg => m.remoteId
  | _ => uint16Max

end Uzmq.Message
