import Uzmq.Distributors
import Uzmq.Mtries

/-!
# Publishing sockets

`xpub_t`, and `pub_t` as far as it differs by `options.type`. The data of the socket is all
here but for metadata, which is only passed on. Frames a pipe has for the socket, the room in a
pipe and the results of writes are given from outside. No result stands for a failed assertion
or an access out of bounds.
-/

namespace Uzmq.Xpubs

open Message
open ByteTrie (Node)
open Mtries (Mtrie subscribers)
open Distributors (Distributor Content)

variable {Pipe : Type} [DecidableEq Pipe]

inductive SocketType where
  | xpub
  | pub
  deriving DecidableEq

structure Xpub (Pipe : Type) where
  type : SocketType := .xpub
  subscriptions : Mtrie Pipe := .new subscribers
  manualSubscriptions : Mtrie Pipe := .new subscribers
  dist : Distributor Pipe := {}
  verboseSubs : Bool := false
  verboseUnsubs : Bool := false
  more : Bool := false
  lossy : Bool := true
  manual : Bool := false
  invertMatching : Bool := false
  lastPipe : Option Pipe := none
  pendingPipes : List (Option Pipe) := []
  welcomeMsg : List UInt8 := []
  pendingData : List (List UInt8) := []
  pendingFlags : List Flags := []

namespace Xpub

variable (x : Xpub Pipe)

/-- Something for the user to receive. -/
def pend (data : List UInt8) (flags : Flags) : Xpub Pipe :=
  { x with pendingData := x.pendingData ++ [data], pendingFlags := x.pendingFlags ++ [flags] }

/-- A subscription (`add`) or an unsubscription, with its frame. -/
def readSubscription (pipe : Pipe) (add : Bool) (topic data : List UInt8) : Option (Xpub Pipe) :=
  if x.manual then
    match (if add then Mtries.add x.manualSubscriptions topic pipe
        else Mtries.rm x.manualSubscriptions topic pipe) with
    | none => none
    | some (trie, _) =>
      some { x.pend data {} with
        manualSubscriptions := trie, pendingPipes := x.pendingPipes ++ [some pipe] }
  else
    match (if add then Mtries.add x.subscriptions topic pipe
        else Mtries.rm x.subscriptions topic pipe) with
    | none => none
    | some (trie, unique) =>
      if x.type = .xpub ∧ (unique ∨ (add ∧ x.verboseSubs) ∨
          (¬ add ∧ x.verboseUnsubs ∧ x.verboseSubs)) then
        some { x.pend data {} with subscriptions := trie }
      else some { x with subscriptions := trie }

/-- One turn of the loop of `xread_activated`. -/
def readFrame (pipe : Pipe) (sub : Msg) : Option (Xpub Pipe) :=
  match sub.data with
  | [] => some (x.pend [] sub.flags)
  | first :: topic =>
    if first = 0 then x.readSubscription pipe false topic sub.data
    else if first = 1 then x.readSubscription pipe true topic sub.data
    else some (x.pend sub.data sub.flags)

def xreadActivated (x : Xpub Pipe) (pipe : Pipe) : List Msg → Option (Xpub Pipe)
  | [] => some x
  | sub :: subs =>
    match x.readFrame pipe sub with
    | none => none
    | some x' => x'.xreadActivated pipe subs

/-- `welcomed` is the result of writing the welcome message. -/
def xattachPipe (pipe : Pipe) (subscribeToAll welcomed : Bool) (subs : List Msg) :
    Option (Xpub Pipe) :=
  match x.dist.attach pipe with
  | none => none
  | some dist =>
    match (if subscribeToAll then (Mtries.add x.subscriptions [] pipe).map Prod.fst
        else some x.subscriptions) with
    | none => none
    | some trie =>
      if x.welcomeMsg ≠ [] ∧ welcomed = false then none
      else xreadActivated { x with dist := dist, subscriptions := trie } pipe subs

def xwriteActivated (pipe : Pipe) : Option (Xpub Pipe) :=
  (x.dist.activated pipe).map fun dist => { x with dist := dist }

def sendUnsubscription (topic : List UInt8) : Xpub Pipe :=
  if x.type = .pub then x
  else if x.manual then
    { x.pend (0 :: topic) {} with lastPipe := none, pendingPipes := x.pendingPipes ++ [none] }
  else x.pend (0 :: topic) {}

def xpipeTerminated (pipe : Pipe) : Option (Xpub Pipe) :=
  match (if x.manual then
      match Mtries.rmPipe x.manualSubscriptions pipe false with
      | none => none
      | some (manualTrie, topics) =>
        (Mtries.rmPipe x.subscriptions pipe false).map fun r =>
          { topics.foldl sendUnsubscription { x with manualSubscriptions := manualTrie } with
            subscriptions := r.1 }
    else
      (Mtries.rmPipe x.subscriptions pipe (!x.verboseUnsubs)).map fun r =>
        r.2.foldl sendUnsubscription { x with subscriptions := r.1 }) with
  | none => none
  | some x => (x.dist.pipeTerminated pipe).map fun dist => { x with dist := dist }

/-- `mark_as_matching` for each pipe `match` calls back for. -/
def markAsMatching (dist : Distributor Pipe) : List Pipe → Option (Distributor Pipe)
  | [] => some dist
  | pipe :: pipes =>
    match dist.matchPipe pipe with
    | none => none
    | some dist' => markAsMatching dist' pipes

/-- The pipes for the first part of a message. -/
def selectPipes (data : List UInt8) : Option (Distributor Pipe) :=
  match Mtries.matching x.subscriptions data with
  | none => none
  | some pipes =>
    match markAsMatching x.dist pipes with
    | none => none
    | some dist => if x.invertMatching then dist.reverseMatch else some dist

/-- The socket after a call of `xsend`, and the writes if the call has not failed. -/
structure Sent (Pipe : Type) where
  socket : Xpub Pipe
  log : Option (List (Pipe × Bool))

def xsend (m : Msg) (c : Content) (room : Pipe → Bool)
    (ok : Nat → Pipe → Bool) : Option (Sent Pipe) :=
  match (if x.more then some x.dist else x.selectPipes m.data) with
  | none => none
  | some dist =>
    if x.lossy ∨ dist.checkHwm room then
      match dist.sendToMatching m c ok with
      | none => none
      | some r =>
        some {
          socket := { x with
            dist := if m.flags.more then r.dist else r.dist.unmatch
            more := m.flags.more }
          log := some r.log }
    else some { socket := { x with dist := dist }, log := none }

/-- The frame and its flags, or nothing if there is none. -/
def xrecv : Option (Xpub Pipe × List UInt8 × Flags) :=
  match x.pendingData, x.pendingFlags with
  | data :: laterData, flags :: laterFlags =>
    let x' := { x with pendingData := laterData, pendingFlags := laterFlags }
    match x.manual, x.pendingPipes with
    | true, pipe :: later => some ({ x' with lastPipe := pipe, pendingPipes := later }, data, flags)
    | _, _ => some (x', data, flags)
  | _, _ => none

inductive SockOpt where
  | verbose (value : Bool)
  | verboser (value : Bool)
  | nodrop (value : Bool)
  | manual (value : Bool)
  | subscribe (topic : List UInt8)
  | unsubscribe (topic : List UInt8)
  | welcomeMsg (data : List UInt8)
  /-- This one is kept in `options_t`. -/
  | invertMatching (value : Bool)

/-- An option that is refused leaves the socket as it is. -/
def xsetsockopt : SockOpt → Option (Xpub Pipe)
  | .verbose value => some { x with verboseSubs := value, verboseUnsubs := false }
  | .verboser value => some { x with verboseSubs := value, verboseUnsubs := value }
  | .nodrop value => some { x with lossy := !value }
  | .manual value => some { x with manual := value }
  | .subscribe topic =>
    match x.manual, x.lastPipe with
    | true, some pipe =>
      (Mtries.add x.subscriptions topic pipe).map fun r => { x with subscriptions := r.1 }
    | _, _ => some x
  | .unsubscribe topic =>
    match x.manual, x.lastPipe with
    | true, some pipe =>
      (Mtries.rm x.subscriptions topic pipe).map fun r => { x with subscriptions := r.1 }
    | _, _ => some x
  | .welcomeMsg data => some { x with welcomeMsg := data }
  | .invertMatching value => some { x with invertMatching := value }

end Xpub

section Equations
variable {x : Xpub Pipe} {pipe : Pipe}

/-- A subscription is applied to the trie, and queued for the user if it should be. -/
theorem readSubscription_eq (hmanual : x.manual = false) (add : Bool) (topic data : List UInt8) :
    x.readSubscription pipe add topic data =
      (if add then Mtries.add x.subscriptions topic pipe
        else Mtries.rm x.subscriptions topic pipe).map fun r =>
          if x.type = .xpub ∧ (r.2 ∨ (add ∧ x.verboseSubs) ∨
              (¬ add ∧ x.verboseUnsubs ∧ x.verboseSubs)) then
            { x.pend data {} with subscriptions := r.1 }
          else { x with subscriptions := r.1 } := by
  unfold Xpub.readSubscription
  rw [if_neg (by simp [hmanual])]
  cases (if add then Mtries.add x.subscriptions topic pipe
    else Mtries.rm x.subscriptions topic pipe) with
  | none => rfl
  | some r =>
    dsimp only [Option.map_some]
    split <;> rfl

/-- The trie is all that a subscription changes, apart from what is queued for the user. -/
theorem readSubscription_frame (hmanual : x.manual = false) (add : Bool)
    (topic data : List UInt8) {trie : Mtrie Pipe} {unique : Bool}
    (h : (if add then Mtries.add x.subscriptions topic pipe
      else Mtries.rm x.subscriptions topic pipe) = some (trie, unique)) :
    ∃ x', x.readSubscription pipe add topic data = some x' ∧ x'.subscriptions = trie ∧
      x'.dist = x.dist ∧ x'.more = x.more ∧ x'.manual = x.manual := by
  rw [readSubscription_eq hmanual, h, Option.map_some]
  refine ⟨_, rfl, ?_⟩
  split <;> exact ⟨rfl, rfl, rfl, rfl⟩

theorem xattachPipe_eq (x : Xpub Pipe) (pipe : Pipe) (subscribeToAll : Bool) :
    x.xattachPipe pipe subscribeToAll true [] =
      match x.dist.attach pipe with
      | none => none
      | some dist =>
        (if subscribeToAll then (Mtries.add x.subscriptions [] pipe).map Prod.fst
          else some x.subscriptions).map fun trie =>
            { x with dist := dist, subscriptions := trie } := by
  unfold Xpub.xattachPipe
  cases x.dist.attach pipe with
  | none => rfl
  | some dist =>
    cases (if subscribeToAll then (Mtries.add x.subscriptions [] pipe).map Prod.fst
      else some x.subscriptions) with
    | none => rfl
    | some trie =>
      dsimp only [Option.map_some]
      rw [if_neg (by simp), Xpub.xreadActivated]

omit [DecidableEq Pipe] in
theorem foldl_sendUnsubscription (htype : x.type = .xpub) (hmanual : x.manual = false)
    (topics : List (List UInt8)) :
    topics.foldl Xpub.sendUnsubscription x =
      { x with
        pendingData := x.pendingData ++ topics.map (0 :: ·)
        pendingFlags := x.pendingFlags ++ topics.map fun _ => {} } := by
  induction topics generalizing x with
  | nil => simp
  | cons topic topics ih =>
    have hone : x.sendUnsubscription topic = x.pend (0 :: topic) {} := by
      simp [Xpub.sendUnsubscription, htype, hmanual]
    rw [List.foldl_cons, hone, ih (x := x.pend (0 :: topic) {}) htype hmanual]
    simp [Xpub.pend]

theorem xpipeTerminated_eq (pipe : Pipe) (htype : x.type = .xpub) (hmanual : x.manual = false) :
    x.xpipeTerminated pipe =
      match Mtries.rmPipe x.subscriptions pipe (!x.verboseUnsubs) with
      | none => none
      | some (trie, topics) =>
        (x.dist.pipeTerminated pipe).map fun dist =>
          { x with
            subscriptions := trie, dist := dist
            pendingData := x.pendingData ++ topics.map (0 :: ·)
            pendingFlags := x.pendingFlags ++ topics.map fun _ => {} } := by
  unfold Xpub.xpipeTerminated
  rw [if_neg (by simp [hmanual])]
  cases Mtries.rmPipe x.subscriptions pipe (!x.verboseUnsubs) with
  | none => rfl
  | some r =>
    obtain ⟨trie, topics⟩ := r
    simp only [Option.map_some]
    rw [foldl_sendUnsubscription (x := { x with subscriptions := trie }) htype hmanual]

omit [DecidableEq Pipe] in
theorem of_xrecv {x' : Xpub Pipe} {frame : List UInt8 × Flags} (hmanual : x.manual = false)
    (h : x.xrecv = some (x', frame)) :
    ∃ data flags, x' = { x with pendingData := data, pendingFlags := flags } := by
  unfold Xpub.xrecv at h
  split at h
  · split at h
    · rename_i htrue _
      rw [hmanual] at htrue
      cases htrue
    · cases h
      exact ⟨_, _, rfl⟩
  · cases h

end Equations

end Uzmq.Xpubs
