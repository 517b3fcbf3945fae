import Uzmq.Linked
import Uzmq.Runs

/-!
# The send queues of a NetML connection

`unsent` and `unacked` as the code keeps them: doubly linked lists of segments,
changed by `tcp_write_netml`, by the loop of `tcp_output`, by the arrival of an
acknowledgement in `tcp_receive_data` with the retransmissions it starts, and by
`tcp_rexmit_rto_prepare`.

A segment is its address; every field of `tcp_seg` is a map. Addresses are not
used again after a segment has been freed. The loops that follow pointers are
given fuel for all segments ever allocated, the walk that retransmits for going
through them once for each, which is not used up on lists that hang together.
-/

namespace Uzmq.NetmlSend

open Function
open Linked

def tcpSeqLt (a b : Nat) : Bool := 2 ^ 31 ≤ (a + 2 ^ 32 - b % 2 ^ 32) % 2 ^ 32

/-- The sequence number is in host order. `owed` records the segments written and
not yet acknowledged, `crashed` that a null pointer was dereferenced. -/
structure Pcb where
  links : Links Nat
  seqno : Nat → Nat
  len : Nat → Nat
  hasresent : Nat → Bool
  fresh : Nat := 0
  unsent : Option Nat := none
  unacked : Option Nat := none
  sndLbb : Nat
  sndBuf : Nat
  owed : List Nat := []
  crashed : Bool := false

def Pcb.new (tcpSndBuf sndLbb : Nat) : Pcb where
  links := ⟨fun _ => none, fun _ => none⟩
  seqno := fun _ => 0
  len := fun _ => 0
  hasresent := fun _ => false
  sndLbb := sndLbb
  sndBuf := tcpSndBuf

/-- What an acknowledgement of the segment carries. -/
def Pcb.ackno (pcb : Pcb) (seg : Nat) : Nat := (pcb.seqno seg + pcb.len seg) % 2 ^ 32

def Pcb.before (pcb : Pcb) (a b : Nat) : Bool := tcpSeqLt (pcb.seqno a) (pcb.seqno b)

/-- The common code of `remove_from_unack` and `remove_from_unsent`: the new links
and the new head. -/
def removeFrom (m : Links Nat) (head : Option Nat) (seg : Nat) : Links Nat × Option Nat :=
  match m.prev seg, m.next seg with
  | none, none => (m, none)
  | some p, none => (m.setNext p none, head)
  | none, some n => (m.setPrev n none, some n)
  | some p, some n => ((m.setNext p (some n)).setPrev n (some p), head)

def removeFromUnack (pcb : Pcb) (seg : Nat) : Pcb :=
  let (links, unacked) := removeFrom pcb.links pcb.unacked seg
  { pcb with links := links, unacked := unacked }

def removeFromUnsent (pcb : Pcb) (seg : Nat) : Pcb :=
  let (links, unsent) := removeFrom pcb.links pcb.unsent seg
  { pcb with links := links, unsent := unsent }

/-- Assignment to `*cur_seg`: the head of the list or the `next` of the node before. -/
def store (m : Links Nat) (head before : Option Nat) (seg : Nat) : Links Nat × Option Nat :=
  match before with
  | none => (m, some seg)
  | some p => (m.setNext p (some seg), head)

/-- Put `seg` before `cur`, found behind `before`. -/
def insertBefore (m : Links Nat) (head before : Option Nat) (cur seg : Nat) :
    Links Nat × Option Nat :=
  let m := m.setPrev seg (m.prev cur)
  let m := m.setPrev cur (some seg)
  let m := m.setNext seg (some cur)
  store m head before seg

/-- The place of `seg` in a sorted list. -/
def place (pcb : Pcb) (head : Option Nat) (seg : Nat) : Option Nat × Option Nat :=
  find pcb.links (fun cur => !pcb.before cur seg) pcb.fresh none head

def last (pcb : Pcb) (head : Option Nat) : Option Nat :=
  (find pcb.links (fun _ => false) pcb.fresh none head).1

/-- `tcp_create_segment` and the linking behind `prevSeg`, for `seglen` bytes. -/
def createSegment (pcb : Pcb) (seqno seglen : Nat) (prevSeg : Option Nat) : Pcb :=
  let seg := pcb.fresh
  let links := match prevSeg with
    | none => (pcb.links.setPrev seg none).setNext seg none
    | some p => ((pcb.links.setNext p (some seg)).setPrev seg (some p)).setNext seg none
  { pcb with
    links := links
    seqno := update pcb.seqno seg (seqno % 2 ^ 32)
    len := update pcb.len seg seglen
    hasresent := update pcb.hasresent seg false
    fresh := seg + 1
    owed := pcb.owed ++ [seg] }

/-- The loop of `tcp_write_netml`; every turn takes at least a byte. -/
def createSegments (len maxLen : Nat) : Nat → Nat → Pcb → Option Nat → Option Nat → Pcb × Option Nat
  | 0, _, pcb, queue, _ => (pcb, queue)
  | fuel + 1, pos, pcb, queue, prevSeg =>
    if pos < len then
      let seglen := min (len - pos) maxLen
      let seg := pcb.fresh
      createSegments len maxLen fuel (pos + seglen)
        (createSegment pcb (pcb.sndLbb + pos) seglen prevSeg) (queue.or (some seg)) (some seg)
    else (pcb, queue)

/-- A successful `tcp_write_netml`. The last segment of `unsent` is linked on to the
new ones, which are not linked back. -/
def tcpWriteNetml (pcb : Pcb) (len maxLen : Nat) : Pcb :=
  let lastUnsent := last pcb pcb.unsent
  let (pcb, queue) := createSegments len maxLen len 0 pcb none none
  let pcb := match lastUnsent with
    | none => { pcb with unsent := queue }
    | some p => { pcb with links := pcb.links.setNext p queue }
  { pcb with sndLbb := (pcb.sndLbb + len) % 2 ^ 32, sndBuf := pcb.sndBuf - len }

/-- The part of a turn of `tcp_output` that puts `seg` into `unacked`. -/
def putUnacked (pcb : Pcb) (seg : Nat) : Pcb :=
  let useg := last pcb pcb.unacked
  let pcb := { pcb with links := (pcb.links.setNext seg none).setPrev seg none }
  match useg with
  | none => { pcb with unacked := some seg }
  | some useg =>
    if pcb.before seg useg then
      match place pcb pcb.unacked seg with
      | (_, none) => { pcb with crashed := true }
      | (before, some cur) =>
        let (links, unacked) := insertBefore pcb.links pcb.unacked before cur seg
        { pcb with links := links, unacked := unacked }
    else { pcb with links := (pcb.links.setNext useg (some seg)).setPrev seg (some useg) }

/-- A turn of the loop of `tcp_output` that sends the head of `unsent`. The loop may
be left after every turn. -/
def tcpOutputTurn (pcb : Pcb) : Pcb :=
  match pcb.unsent with
  | none => pcb
  | some seg =>
    let pcb := { pcb with unsent := pcb.links.next seg }
    let pcb := if 0 < pcb.len seg then putUnacked pcb seg else pcb
    match pcb.unsent with
    | none => pcb
    | some head => { pcb with links := pcb.links.setPrev head none }

def tcpRexmitData (pcb : Pcb) (seg : Nat) (busy : Bool) : Pcb :=
  if busy then pcb
  else
    let pcb := { pcb with hasresent := update pcb.hasresent seg true }
    match pcb.unsent with
    | none =>
      { pcb with unsent := some seg, links := (pcb.links.setNext seg none).setPrev seg none }
    | some _ =>
      match place pcb pcb.unsent seg with
      | (before, some cur) =>
        let (links, unsent) := insertBefore pcb.links pcb.unsent before cur seg
        { pcb with links := links, unsent := unsent }
      | (before, none) =>
        let (links, unsent) := store pcb.links pcb.unsent before seg
        { pcb with links := (links.setPrev seg before).setNext seg none, unsent := unsent }

/-- The walk over the segments before the acknowledged one. It follows `prev` also
from a segment that has just been put into `unsent`. -/
def rexmitPrevious (busy : Nat → Bool) : Nat → Pcb → Option Nat → Pcb
  | 0, pcb, _ => pcb
  | _ + 1, pcb, none => pcb
  | fuel + 1, pcb, some prev =>
    let pcb := if pcb.hasresent prev then pcb
      else tcpRexmitData (removeFromUnack pcb prev) prev (busy prev)
    rexmitPrevious busy fuel pcb (pcb.links.prev prev)

/-- The loop over `unsent`: free the segment that is acknowledged. -/
def ackUnsent (pcb : Pcb) (ackno : Nat) : Pcb × Nat :=
  match (find pcb.links (fun seg => pcb.ackno seg = ackno) pcb.fresh none pcb.unsent).2 with
  | none => (pcb, 0)
  | some seg => (removeFromUnsent pcb seg, pcb.len seg)

def ackUnacked (pcb : Pcb) (ackno : Nat) (busy : Nat → Bool) : Pcb × Nat :=
  match (find pcb.links (fun seg => pcb.ackno seg = ackno) pcb.fresh none pcb.unacked).2 with
  | none => (pcb, 0)
  | some seg =>
    let acked := removeFromUnack pcb seg
    (rexmitPrevious busy ((pcb.fresh + 1) * (pcb.fresh + 1)) acked (acked.links.prev seg),
      pcb.len seg)

/-- The acknowledgement branch of `tcp_receive_data`. -/
def receiveAck (pcb : Pcb) (ackno : Nat) (busy : Nat → Bool) : Pcb :=
  let owed := pcb.owed.filter (fun seg => pcb.ackno seg ≠ ackno)
  let (pcb, acked) := ackUnsent pcb ackno
  let (pcb, acked') := ackUnacked pcb ackno busy
  { pcb with sndBuf := pcb.sndBuf + (acked + acked'), owed := owed }

def unsentList (pcb : Pcb) : List Nat := nodes pcb.links pcb.fresh pcb.unsent

def unackedList (pcb : Pcb) : List Nat := nodes pcb.links pcb.fresh pcb.unacked

/-- `unacked` goes to the front of `unsent`, unless the driver still uses a segment. -/
def tcpRexmitRtoPrepare (pcb : Pcb) (busy : Nat → Bool) : Pcb :=
  match last pcb pcb.unacked with
  | none => pcb
  | some seg =>
    if (unackedList pcb).any busy then pcb
    else
      let links := pcb.links.setNext seg pcb.unsent
      let links := match pcb.unsent with
        | none => links
        | some head => links.setPrev head (some seg)
      { pcb with links := links, unsent := pcb.unacked, unacked := none }

inductive Input where
  | write (len maxLen : Nat)
  | output
  | ack (ackno : Nat) (busy : Nat → Bool)
  | rtoPrepare (busy : Nat → Bool)

/-- A write is successful only if `len` does not exceed `snd_buf`; segments have room
for at least one byte. -/
def step (pcb : Pcb) (i : Input) : Option Pcb :=
  if pcb.crashed then none
  else
    match i with
    | .write len maxLen =>
      if len ≤ pcb.sndBuf ∧ 0 < maxLen then some (tcpWriteNetml pcb len maxLen) else none
    | .output => some (tcpOutputTurn pcb)
    | .ack ackno busy => some (receiveAck pcb ackno busy)
    | .rtoPrepare busy => some (tcpRexmitRtoPrepare pcb busy)

end Uzmq.NetmlSend
