import Uzmq.DistributorSends
import Uzmq.FairQueues

/-!
# Dish sockets

The part of `dish_t` that deals with groups. The groups are in the order of `std::set`, and the
group of a join or leave message, for which the code has a field of its own, is in its data. Calls
that are refused have no effect.
-/

namespace Uzmq.Dishes

open Message
open Distributors (Content Distributor)
open FairQueues (Fq)

variable {Pipe : Type} [DecidableEq Pipe]

def groupMaxLength : Nat := 15

structure Dish (Pipe : Type) where
  fq : Fq Pipe := {}
  dist : Distributor Pipe := {}
  subscriptions : List (List UInt8) := []

def joinMsg (group : List UInt8) : Msg := { type := .join, data := group }

def leaveMsg (group : List UInt8) : Msg := { type := .leave, data := group }

/-- The socket after a call of `xjoin` or `xleave`, and the writes. -/
structure Sent (Pipe : Type) where
  socket : Dish Pipe
  log : List (Pipe × Bool)

namespace Dish

variable (d : Dish Pipe)

/-- What `send_subscriptions` writes. -/
def sendSubscriptions : List Msg := d.subscriptions.map joinMsg

def xattachPipe (pipe : Pipe) : Option (Dish Pipe × List Msg) :=
  match d.fq.attach pipe with
  | none => none
  | some fq =>
    (d.dist.attach pipe).map fun dist => ({ d with fq := fq, dist := dist }, d.sendSubscriptions)

def xwriteActivated (pipe : Pipe) : Option (Dish Pipe) :=
  (d.dist.activated pipe).map fun dist => { d with dist := dist }

def xpipeTerminated (pipe : Pipe) : Option (Dish Pipe) :=
  match d.fq.pipeTerminated pipe with
  | none => none
  | some fq => (d.dist.pipeTerminated pipe).map fun dist => { d with fq := fq, dist := dist }

def xhiccuped : List Msg := d.sendSubscriptions

/-- The groups have changed, and the message about it is sent to all pipes. -/
def announce (groups : List (List UInt8)) (m : Msg) (ok : Nat → Pipe → Bool) : Option (Sent Pipe) :=
  (d.dist.sendToAll m {} ok).map fun r =>
    { socket := { d with dist := r.dist, subscriptions := groups }, log := r.log }

def xjoin (group : List UInt8) (ok : Nat → Pipe → Bool) : Option (Sent Pipe) :=
  if groupMaxLength < group.length ∨ group ∈ d.subscriptions then
    some { socket := d, log := [] }
  else d.announce (d.subscriptions.orderedInsert (· ≤ ·) group) (joinMsg group) ok

def xleave (group : List UInt8) (ok : Nat → Pipe → Bool) : Option (Sent Pipe) :=
  if groupMaxLength < group.length ∨ group ∉ d.subscriptions then
    some { socket := d, log := [] }
  else d.announce (d.subscriptions.erase group) (leaveMsg group) ok

end Dish

end Uzmq.Dishes
