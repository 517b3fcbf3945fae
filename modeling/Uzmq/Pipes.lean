import Uzmq.Handshake
import Uzmq.Runs
import Uzmq.UPipe

/-!
# Pipes

`pipe_t` and its command handlers, and the two ends `pipepair` creates. An end
executes its methods on what it sees: its own fields, the queues it reads from and
those it writes to, and the commands it sends to its peer. Queues are named by the
end that reads them and a number; `hiccup` takes the next one.

The event sinks are attached before the pipes are used and do nothing here.
`failed` records a failed assertion, or an access to a queue that is null or was
deleted.
-/

namespace Uzmq.Pipes

open UPipe List Function
open Message Handshake

inductive State where
  | active
  | delimiterReceived
  | waitingForDelimiter
  | termAckSent
  | termReqSent1
  | termReqSent2
  deriving DecidableEq, Repr

inductive Command where
  | activateRead
  | activateWrite (msgsRead : Nat)
  | hiccup (pipe : Nat)
  | pipeTerm
  | pipeTermAck
  | pipeHwm (inhwm outhwm : Int)
  deriving DecidableEq, Repr

/-- Signed arithmetic on 32 bits. -/
def int32 (x : Int) : Int := Int.bmod x (2 ^ 32)

def computeLwm (hwm : Int) : Int := (int32 (hwm + 1)).tdiv 2

/-- The counters are below `2 ^ 64`. `deleted` is set when the object deletes itself. -/
structure Pipe where
  inpipe : Nat
  outpipe : Option Nat
  inActive : Bool := true
  outActive : Bool := true
  hwm : Int
  lwm : Int
  inhwmboost : Int := -1
  outhwmboost : Int := -1
  msgsRead : Nat := 0
  msgsWritten : Nat := 0
  peersMsgsRead : Nat := 0
  state : State := .active
  delay : Bool := true
  conflate : Bool
  deleted : Bool := false

def Pipe.new (inhwm outhwm : Int) (conflate : Bool) : Pipe where
  inpipe := 0
  outpipe := some 0
  hwm := outhwm
  lwm := computeLwm inhwm
  conflate := conflate

def Pipe.setHwms (p : Pipe) (inhwm outhwm : Int) : Pipe :=
  let inn := int32 (inhwm + if 0 < p.inhwmboost then p.inhwmboost else 0)
  let out := int32 (outhwm + if 0 < p.outhwmboost then p.outhwmboost else 0)
  -- Zero or less on either side means infinite.
  let inn := if inhwm ≤ 0 ∨ p.inhwmboost = 0 then 0 else inn
  let out := if outhwm ≤ 0 ∨ p.outhwmboost = 0 then 0 else out
  { p with lwm := computeLwm inn, hwm := out }

def Pipe.setHwmsBoost (p : Pipe) (inhwmboost outhwmboost : Int) : Pipe :=
  { p with inhwmboost := inhwmboost, outhwmboost := outhwmboost }

def Pipe.checkHwm (p : Pipe) : Bool :=
  let full := decide (0 < p.hwm) &&
    decide (p.hwm.toNat ≤ (p.msgsWritten + 2 ^ 64 - p.peersMsgsRead) % 2 ^ 64)
  !full

/-- What an end sees while it executes a method. -/
structure Local where
  pipe : Pipe
  inbound : Nat → Option UPipe
  outbound : Nat → Option UPipe
  sent : List Command := []
  failed : Bool := false

namespace Local

variable (l : Local)

def fail : Local := { l with failed := true }

/-- Assignments to the fields of the end itself. -/
def modify (f : Pipe → Pipe) : Local := { l with pipe := f l.pipe }

def send (c : Command) : Local := { l with sent := l.sent ++ [c] }

def setIn (q : Option UPipe) : Local :=
  { l with inbound := update l.inbound l.pipe.inpipe q }

def setOut (p : Nat) (q : Option UPipe) : Local :=
  { l with outbound := update l.outbound p q }

/-- Drop the outbound queue and acknowledge. -/
def sendPipeTermAck (state : State) : Local :=
  (l.modify fun p => { p with outpipe := none, state := state }).send .pipeTermAck

def processDelimiter : Local :=
  match l.pipe.state with
  | .active => l.modify fun p => { p with state := .delimiterReceived }
  | .waitingForDelimiter => l.sendPipeTermAck .termAckSent
  | _ => l.fail

def mayRead : Bool :=
  l.pipe.inActive && (l.pipe.state == .active || l.pipe.state == .waitingForDelimiter)

def checkRead : Local × Bool :=
  if !l.mayRead then (l, false)
  else
    match l.inbound l.pipe.inpipe with
    | none => (l.fail, false)
    | some q =>
      if !q.checkRead then (l.modify fun p => { p with inActive := false }, false)
      else
        match q.probe Msg.isDelimiter with
        | none => (l.fail, false)
        | some false => (l, true)
        | some true =>
          match q.read with
          | none => (l.fail, false)
          | some (_, q) => ((l.setIn (some q)).processDelimiter, false)

/-- Read on until something that is not a credential comes. -/
def readMessage : Nat → UPipe → Option Msg × UPipe
  | 0, q => (none, q)
  | fuel + 1, q =>
    match q.read with
    | none => (none, q)
    | some (msg, q) => if msg.flags.credential then readMessage fuel q else (some msg, q)

def countRead (msg : Msg) : Local :=
  if !msg.flags.more && !msg.flags.routingId
  then l.modify fun p => { p with msgsRead := (p.msgsRead + 1) % 2 ^ 64 } else l

def reportRead : Local :=
  if 0 < l.pipe.lwm ∧ l.pipe.msgsRead % l.pipe.lwm.toNat = 0
  then l.send (.activateWrite l.pipe.msgsRead) else l

def read : Local × Option Msg :=
  if !l.mayRead then (l, none)
  else
    match l.inbound l.pipe.inpipe with
    | none => (l.fail, none)
    | some q =>
      match readMessage (q.readable.length + 1) q with
      | (none, q) => ((l.setIn (some q)).modify fun p => { p with inActive := false }, none)
      | (some msg, q) =>
        let l := l.setIn (some q)
        if msg.isDelimiter then (l.processDelimiter, none)
        else ((l.countRead msg).reportRead, some msg)

def checkWrite : Local × Bool :=
  if !l.pipe.outActive || l.pipe.state != .active then (l, false)
  else if !l.pipe.checkHwm then (l.modify fun p => { p with outActive := false }, false)
  else (l, true)

def countWritten (msg : Msg) : Local :=
  if !msg.flags.more && !msg.flags.routingId
  then l.modify fun p => { p with msgsWritten := (p.msgsWritten + 1) % 2 ^ 64 } else l

def write (msg : Msg) : Local × Bool :=
  match l.checkWrite with
  | (l, false) => (l, false)
  | (l, true) =>
    match l.pipe.outpipe with
    | none => (l.fail, false)
    | some p =>
      match l.outbound p with
      | none => (l.fail, false)
      | some q =>
        ((l.setOut p (some (q.write msg msg.flags.more fun h => h))).countWritten msg, true)

/-- Take back the unfinished parts. The second result says that the assertion held
for each of them. -/
def unwriteAll : Nat → UPipe → UPipe × Bool
  | 0, q => (q, true)
  | fuel + 1, q =>
    match q.unwrite with
    | none => (q, true)
    | some (msg, q) =>
      let (q, ok) := unwriteAll fuel q
      (q, msg.flags.more && ok)

def rollback : Local :=
  match l.pipe.outpipe with
  | none => l
  | some p =>
    match l.outbound p with
    | none => l.fail
    | some q =>
      let (q, ok) := unwriteAll (q.unfinished.length + 1) q
      let l := l.setOut p (some q)
      if ok then l else l.fail

def flush : Local :=
  if l.pipe.state = .termAckSent then l
  else
    match l.pipe.outpipe with
    | none => l
    | some p =>
      match l.outbound p with
      | none => l.fail
      | some q => (l.setOut p (some q.flush)).send .activateRead

def processActivateRead : Local :=
  if !l.pipe.inActive && (l.pipe.state == .active || l.pipe.state == .waitingForDelimiter)
  then l.modify fun p => { p with inActive := true } else l

def processActivateWrite (msgsRead : Nat) : Local :=
  let l := l.modify fun p => { p with peersMsgsRead := msgsRead }
  if !l.pipe.outActive && l.pipe.state == .active
  then l.modify fun p => { p with outActive := true } else l

/-- The number of complete messages in a queue that is read to its end. -/
def drain : Nat → UPipe → Nat
  | 0, _ => 0
  | fuel + 1, q =>
    match q.read with
    | none => 0
    | some (msg, q) => (if msg.flags.more then 0 else 1) + drain fuel q

def processHiccup (pipe : Nat) : Local :=
  match l.pipe.outpipe with
  | none => l.fail
  | some p =>
    match l.outbound p with
    | none => l.fail
    | some q =>
      let q := q.flush
      let dropped := drain (q.readable.length + 1) q
      let l := l.modify fun p =>
        { p with msgsWritten := (p.msgsWritten + (2 ^ 64 - dropped % 2 ^ 64)) % 2 ^ 64 }
      let l := l.setOut p none
      l.modify fun p => { p with outpipe := some pipe, outActive := true }

def processPipeTerm : Local :=
  match l.pipe.state with
  | .active =>
    if l.pipe.delay then l.modify fun p => { p with state := .waitingForDelimiter }
    else l.sendPipeTermAck .termAckSent
  | .delimiterReceived => l.sendPipeTermAck .termAckSent
  | .termReqSent1 => l.sendPipeTermAck .termReqSent2
  | _ => l.fail

/-- The inbound queue is deleted, and then the end itself. -/
def deallocate : Local :=
  match l.inbound l.pipe.inpipe with
  | none => l.fail
  | some _ => (l.setIn none).modify fun p => { p with deleted := true }

def processPipeTermAck : Local :=
  match l.pipe.state with
  | .termReqSent1 => (l.sendPipeTermAck .termReqSent1).deallocate
  | .termAckSent => l.deallocate
  | .termReqSent2 => l.deallocate
  | _ => l.fail

def delimiter : Msg := { type := .delimiter }

/-- The end of `terminate`: unfinished messages are dropped and the delimiter is written. -/
def writeDelimiter : Local :=
  match l.pipe.outpipe with
  | none => l
  | some p =>
    let l := l.rollback
    match l.outbound p with
    | none => l.fail
    | some q => (l.setOut p (some (q.write delimiter false (by simp)))).flush

/-- No more messages go out. -/
def stopOutbound : Local :=
  (l.modify fun p => { p with outActive := false }).writeDelimiter

def requestTerm : Local :=
  (l.send .pipeTerm).modify fun p => { p with state := .termReqSent1 }

def terminate (delay : Bool) : Local :=
  let l := l.modify fun p => { p with delay := delay }
  match l.pipe.state with
  | .termReqSent1 => l
  | .termReqSent2 => l
  | .termAckSent => l
  | .active => l.requestTerm.stopOutbound
  | .waitingForDelimiter =>
    if delay then l.stopOutbound
    else (l.rollback.sendPipeTermAck .termAckSent).stopOutbound
  | .delimiterReceived => l.requestTerm.stopOutbound

def hiccup : Local :=
  if l.pipe.state ≠ .active then l
  else
    let l := l.modify fun p => { p with inpipe := p.inpipe + 1, inActive := true }
    (l.setIn (some (UPipe.new l.pipe.conflate))).send (.hiccup l.pipe.inpipe)

def setNodelay : Local := l.modify fun p => { p with delay := false }

def sendHwmsToPeer (inhwm outhwm : Int) : Local := l.send (.pipeHwm inhwm outhwm)

def setHwms (inhwm outhwm : Int) : Local :=
  l.modify fun p => p.setHwms inhwm outhwm

end Local

section Loops

theorem unwriteAll_ok (fuel : Nat) (q : UPipe) : (Local.unwriteAll fuel q).2 = true := by
  induction fuel generalizing q with
  | zero => rfl
  | succ fuel ih =>
    unfold Local.unwriteAll
    cases h : q.unwrite with
    | none => rfl
    | some r =>
      obtain ⟨msg, rest⟩ := r
      obtain ⟨-, hmore, -⟩ := unwrite_eq_some h
      simp [hmore, ih rest]

theorem unwriteAll_frame (fuel : Nat) (q : UPipe) :
    (Local.unwriteAll fuel q).1.readable = q.readable ∧
      (Local.unwriteAll fuel q).1.unflushed = q.unflushed ∧
      ∀ m ∈ (Local.unwriteAll fuel q).1.unfinished, m ∈ q.unfinished := by
  induction fuel generalizing q with
  | zero => exact ⟨rfl, rfl, fun m hm => hm⟩
  | succ fuel ih =>
    unfold Local.unwriteAll
    cases h : q.unwrite with
    | none => exact ⟨rfl, rfl, fun m hm => hm⟩
    | some r =>
      obtain ⟨msg, rest⟩ := r
      obtain ⟨hunfinished, -, hreadable, hunflushed⟩ := unwrite_eq_some h
      obtain ⟨hreadable', hunflushed', hunfinished'⟩ := ih rest
      refine ⟨hreadable'.trans hreadable, hunflushed'.trans hunflushed, ?_⟩
      intro m hm
      rw [hunfinished]
      exact mem_append_left _ (hunfinished' m hm)

/-- Reading takes `gone` out of `q`, and `rest` remains. -/
structure Consumes (q : UPipe) (gone : List Msg) (rest : UPipe) : Prop where
  readable : q.readable = gone ++ rest.readable
  unflushed : rest.unflushed = q.unflushed
  unfinished : rest.unfinished = q.unfinished

section Consuming
variable {q rest last : UPipe} {gone later : List Msg} {m : Msg}

theorem Consumes.of_read (h : q.read = some (m, rest)) : Consumes q [m] rest := by
  obtain ⟨hunflushed, hunfinished⟩ := read_frame h
  exact ⟨read_eq_some h, hunflushed, hunfinished⟩

theorem Consumes.trans (h : Consumes q gone rest) (h' : Consumes rest later last) :
    Consumes q (gone ++ later) last := by
  refine ⟨?_, h'.unflushed.trans h.unflushed, h'.unfinished.trans h.unfinished⟩
  rw [h.readable, h'.readable, append_assoc]

theorem Consumes.complete (h : Consumes q gone rest) : q.complete = gone ++ rest.complete := by
  rw [UPipe.complete, UPipe.complete, h.readable, h.unflushed, append_assoc]

theorem Consumes.parts (h : Consumes q gone rest) : q.parts = gone ++ rest.parts := by
  rw [UPipe.parts, UPipe.parts, h.complete, h.unfinished, append_assoc]

end Consuming

/-- Which item a read returns: credentials before it are passed over. -/
theorem readMessage_spec {fuel : Nat} {q : UPipe} (hfuel : q.readable.length < fuel) :
    match Local.readMessage fuel q with
    | (none, rest) => Consumes q q.readable rest ∧ ∀ m ∈ q.readable, m.flags.credential = true
    | (some m, rest) => ∃ before, Consumes q (before ++ [m]) rest ∧
        (∀ m ∈ before, m.flags.credential = true) ∧ m.flags.credential = false := by
  induction fuel generalizing q with
  | zero => cases hfuel
  | succ fuel ih =>
    unfold Local.readMessage
    cases hread : q.read with
    | none =>
      have hnil := read_eq_none.mp hread
      exact ⟨⟨by simp [hnil], rfl, rfl⟩, by simp [hnil]⟩
    | some r =>
      obtain ⟨msg, rest⟩ := r
      have hgone := Consumes.of_read hread
      dsimp only
      cases hcred : msg.flags.credential with
      | false => exact ⟨[], hgone, by simp, hcred⟩
      | true =>
        have hlength : rest.readable.length < fuel := by
          rw [hgone.readable] at hfuel
          simpa using hfuel
        have hrest := ih hlength
        rcases hres : Local.readMessage fuel rest with ⟨res, last⟩
        rw [hres] at hrest
        cases res with
        | none =>
          obtain ⟨hlater, hall⟩ := hrest
          rw [hgone.readable]
          exact ⟨hgone.trans hlater, by simpa [hcred] using hall⟩
        | some m =>
          obtain ⟨before, hlater, hall, hm⟩ := hrest
          exact ⟨msg :: before, hgone.trans hlater, by simpa [hcred] using hall, hm⟩

end Loops

section Fields
variable {l : Local}

theorem rollback_pipe : l.rollback.pipe = l.pipe := by
  unfold Local.rollback
  split
  · rfl
  · split
    · rfl
    · dsimp only
      split <;> rfl

theorem flush_pipe : l.flush.pipe = l.pipe := by
  unfold Local.flush
  split
  · rfl
  · split
    · rfl
    · split <;> rfl

theorem writeDelimiter_pipe : l.writeDelimiter.pipe = l.pipe := by
  unfold Local.writeDelimiter
  split
  · rfl
  · dsimp only
    split
    · exact rollback_pipe
    · exact flush_pipe.trans rollback_pipe

end Fields

section Outcomes
variable (l : Local)

/-- What `check_read` comes to. -/
inductive Checked : Local × Bool → Prop where
  | refused : Checked (l, false)
  | lost (h : l.inbound l.pipe.inpipe = none) : Checked (l.fail, false)
  | empty {q : UPipe} (found : l.inbound l.pipe.inpipe = some q) (h : q.readable = []) :
      Checked (l.modify fun p => { p with inActive := false }, false)
  | ready : Checked (l, true)
  | delimiter {q rest : UPipe} {m : Msg} (may : l.mayRead = true)
      (found : l.inbound l.pipe.inpipe = some q) (gone : Consumes q [m] rest)
      (ends : m.isDelimiter = true) : Checked ((l.setIn (some rest)).processDelimiter, false)

theorem checkRead_checked : Checked l l.checkRead := by
  unfold Local.checkRead
  split
  · exact .refused
  rename_i hmay
  split
  · rename_i hnone
    exact .lost hnone
  rename_i q hq
  simp only [checkRead_eq, probe_eq, Bool.not_not]
  cases hread : q.read with
  | none =>
    have hnil := read_eq_none.mp hread
    simp only [hnil, isEmpty_nil, if_true]
    exact .empty hq hnil
  | some r =>
    -- The item that was found is there when it is probed and read.
    obtain ⟨m, rest⟩ := r
    simp only [read_eq_some hread, isEmpty_cons, Bool.false_eq_true, if_false,
      head?_cons, Option.map_some]
    cases hm : m.isDelimiter with
    | false => exact .ready
    | true => exact .delimiter (by simpa using hmay) hq (.of_read hread) hm

/-- What `read` comes to. -/
inductive Fetched : Local × Option Msg → Prop where
  | refused : Fetched (l, none)
  | lost (h : l.inbound l.pipe.inpipe = none) : Fetched (l.fail, none)
  | empty {q rest : UPipe} (found : l.inbound l.pipe.inpipe = some q)
      (gone : Consumes q q.readable rest) (hidden : ∀ m ∈ q.readable, m.flags.credential = true) :
      Fetched ((l.setIn (some rest)).modify fun p => { p with inActive := false }, none)
  | delimiter {q rest : UPipe} {before : List Msg} {m : Msg} (may : l.mayRead = true)
      (found : l.inbound l.pipe.inpipe = some q) (gone : Consumes q (before ++ [m]) rest)
      (ends : m.isDelimiter = true) : Fetched ((l.setIn (some rest)).processDelimiter, none)
  | part {q rest : UPipe} {before : List Msg} {m : Msg} (may : l.mayRead = true)
      (found : l.inbound l.pipe.inpipe = some q) (gone : Consumes q (before ++ [m]) rest)
      (hidden : ∀ m ∈ before, m.flags.credential = true) (shown : m.flags.credential = false)
      (goes : m.isDelimiter = false) :
      Fetched (((l.setIn (some rest)).countRead m).reportRead, some m)

theorem read_fetched : Fetched l l.read := by
  unfold Local.read
  split
  · exact .refused
  rename_i hmay
  split
  · rename_i hnone
    exact .lost hnone
  rename_i q hq
  have hspec := readMessage_spec (Nat.lt_succ_self q.readable.length)
  rcases hres : Local.readMessage (q.readable.length + 1) q with ⟨res, rest⟩
  rw [hres] at hspec
  cases res with
  | none => exact .empty hq hspec.1 hspec.2
  | some m =>
    obtain ⟨before, hgone, hall, hm⟩ := hspec
    dsimp only
    split
    · rename_i hends
      exact .delimiter (by simpa using hmay) hq hgone hends
    · rename_i hgoes
      exact .part (by simpa using hmay) hq hgone hall hm (by simpa using hgoes)

/-- What a write comes to. -/
inductive Wrote (msg : Msg) : Local × Bool → Prop where
  | refused (h : l.pipe.state = .active → l.pipe.outActive = false) : Wrote msg (l, false)
  | full (h : l.pipe.checkHwm = false) (active : l.pipe.state = .active) :
      Wrote msg (l.modify fun p => { p with outActive := false }, false)
  | lost (h : ∀ p ∈ l.pipe.outpipe, l.outbound p = none) (active : l.pipe.state = .active) :
      Wrote msg (l.fail, false)
  | put {p : Nat} {q : UPipe} (active : l.pipe.state = .active) (room : l.pipe.checkHwm = true)
      (out : l.pipe.outActive = true) (outpipe : l.pipe.outpipe = some p)
      (found : l.outbound p = some q) :
      Wrote msg ((l.setOut p (some (q.write msg msg.flags.more fun h => h))).countWritten msg, true)

theorem write_wrote (msg : Msg) : Wrote l msg (l.write msg) := by
  unfold Local.write Local.checkWrite
  cases hout : l.pipe.outActive with
  | false => exact .refused fun _ => hout
  | true =>
    by_cases hstate : l.pipe.state = .active
    · cases hhwm : l.pipe.checkHwm with
      | false =>
        simp only [hstate, bne_self_eq_false, Bool.not_true, Bool.or_self, Bool.not_false,
          Bool.false_eq_true, if_false, if_true]
        exact .full hhwm hstate
      | true =>
        simp only [hstate, bne_self_eq_false, Bool.not_true, Bool.or_self, Bool.false_eq_true,
          if_false]
        cases hp : l.pipe.outpipe with
        | none => exact .lost (by simp [hp]) hstate
        | some p =>
          dsimp only
          cases hq : l.outbound p with
          | none => exact .lost (by simp [hp, hq]) hstate
          | some q => exact .put hstate hhwm hout hp hq
    · rw [if_pos (by simp [hstate])]
      exact .refused fun h => absurd h hstate

end Outcomes

section Outbound

/-- A method that has nothing to do with writing may forbid it, but leaves it alone otherwise. -/
def SameOut (p p' : Pipe) : Prop :=
  p'.state = .active → p.state = .active ∧ p'.outActive = p.outActive

theorem SameOut.refl (p : Pipe) : SameOut p p := fun h => ⟨h, rfl⟩

theorem SameOut.trans {p p' p'' : Pipe} (h : SameOut p p') (h' : SameOut p' p'') :
    SameOut p p'' := by
  intro hactive
  obtain ⟨hactive', hout⟩ := h' hactive
  obtain ⟨hactive'', hout'⟩ := h hactive'
  exact ⟨hactive'', hout.trans hout'⟩

theorem SameOut.of_closed {p p' : Pipe} (h : p'.state ≠ .active) : SameOut p p' :=
  fun hactive => absurd hactive h

variable (l : Local)

theorem sameOut_processDelimiter : SameOut l.pipe l.processDelimiter.pipe := by
  unfold Local.processDelimiter
  split
  · exact SameOut.of_closed nofun
  · exact SameOut.of_closed nofun
  · exact SameOut.refl _

section
variable (msg : Msg)

theorem sameOut_countRead : SameOut l.pipe (l.countRead msg).pipe := by
  unfold Local.countRead
  split <;> exact SameOut.refl _

theorem reportRead_pipe : l.reportRead.pipe = l.pipe := by
  unfold Local.reportRead
  split <;> rfl

theorem sameOut_read : SameOut l.pipe l.read.1.pipe := by
  unfold Local.read
  split
  · exact SameOut.refl _
  split
  · exact SameOut.refl _
  split
  · exact SameOut.refl _
  rename_i q _
  split
  · exact sameOut_processDelimiter (l.setIn (some q))
  · rw [reportRead_pipe]
    exact sameOut_countRead (l.setIn (some q)) _

theorem sameOut_checkRead : SameOut l.pipe l.checkRead.1.pipe := by
  unfold Local.checkRead
  split
  · exact SameOut.refl _
  split
  · exact SameOut.refl _
  split
  · exact SameOut.refl _
  split
  · exact SameOut.refl _
  · exact SameOut.refl _
  · split
    · exact SameOut.refl _
    · rename_i q _
      exact sameOut_processDelimiter (l.setIn (some q))

theorem terminate_state (delay : Bool) : (l.terminate delay).pipe.state ≠ .active ∧
    (l.terminate delay).pipe.state ≠ .delimiterReceived := by
  have hstop : ∀ m : Local, m.stopOutbound.pipe.state = m.pipe.state := by
    intro m
    unfold Local.stopOutbound
    rw [writeDelimiter_pipe]
    rfl
  unfold Local.terminate
  cases hstate : l.pipe.state with
  | active | delimiterReceived => simp [Local.modify, hstate, hstop, Local.requestTerm]
  | waitingForDelimiter =>
    cases delay
    · simp [Local.modify, hstate, hstop, Local.sendPipeTermAck, Local.send]
    · simp [Local.modify, hstate, hstop]
  | termAckSent | termReqSent1 | termReqSent2 => simp [Local.modify, hstate]

theorem sameOut_hiccup : SameOut l.pipe l.hiccup.pipe := by
  unfold Local.hiccup
  split <;> exact SameOut.refl _

theorem countWritten_frame : (l.countWritten msg).pipe.outActive = l.pipe.outActive ∧
    (l.countWritten msg).pipe.state = l.pipe.state := by
  unfold Local.countWritten
  split <;> exact ⟨rfl, rfl⟩

/-- A write that is refused leaves an end that is closed or waits for its peer. -/
theorem write_refused (h : (l.write msg).2 = false)
    (hfailed : (l.write msg).1.failed = false) (hstate : (l.write msg).1.pipe.state = .active) :
    (l.write msg).1.pipe.outActive = false := by
  have hwrote := write_wrote l msg
  generalize l.write msg = r at h hfailed hstate hwrote ⊢
  cases hwrote with
  | refused hclosed => exact hclosed hstate
  | full => rfl
  | lost => cases hfailed
  | put => cases h

theorem write_accepted (h : (l.write msg).2 = true) : (l.write msg).1.pipe.outActive = true := by
  have hwrote := write_wrote l msg
  generalize l.write msg = r at h hwrote ⊢
  cases hwrote with
  | put _ _ hout => exact (countWritten_frame _ msg).1.trans hout
  | refused | full | lost => cases h

theorem write_state : (l.write msg).1.pipe.state = l.pipe.state := by
  have hwrote := write_wrote l msg
  generalize l.write msg = r at hwrote ⊢
  cases hwrote with
  | put => exact (countWritten_frame _ msg).2
  | refused | full | lost => rfl

theorem write_answer (msg msg' : Msg) : (l.write msg).2 = (l.write msg').2 := by
  unfold Local.write
  split
  · rfl
  · split
    · rfl
    · split <;> rfl

/-- A write leaves an end that has room as it is, whatever happens. -/
theorem write_of_room (hout : l.pipe.outActive = true)
    (hroom : l.pipe.state = .active → l.pipe.checkHwm = true) :
    (l.write msg).1.pipe.outActive = true := by
  have hwrote := write_wrote l msg
  generalize l.write msg = r at hwrote ⊢
  cases hwrote with
  | refused => exact hout
  | full hfull hactive => cases (hroom hactive).symm.trans hfull
  | lost => exact hout
  | put => exact (countWritten_frame _ msg).1.trans hout

end

theorem sameOut_processPipeTermAck : SameOut l.pipe l.processPipeTermAck.pipe := by
  have hdeallocate : ∀ m : Local, m.deallocate.pipe.state = m.pipe.state := by
    intro m
    unfold Local.deallocate
    split <;> rfl
  unfold Local.processPipeTermAck
  split
  · exact SameOut.of_closed (by rw [hdeallocate]; nofun)
  · rename_i hstate
    exact SameOut.of_closed (by rw [hdeallocate, hstate]; nofun)
  · rename_i hstate
    exact SameOut.of_closed (by rw [hdeallocate, hstate]; nofun)
  · exact SameOut.refl _

theorem sameOut_processPipeTerm : SameOut l.pipe l.processPipeTerm.pipe := by
  unfold Local.processPipeTerm
  split
  · split <;> exact SameOut.of_closed nofun
  · exact SameOut.of_closed nofun
  · exact SameOut.of_closed nofun
  · exact SameOut.refl _

theorem sameOut_processActivateRead : SameOut l.pipe l.processActivateRead.pipe := by
  unfold Local.processActivateRead
  split <;> exact SameOut.refl _

end Outbound

/-- The methods users call. -/
inductive Call where
  | checkRead
  | read
  | checkWrite
  | write (msg : Msg)
  | rollback
  | flush
  | terminate (delay : Bool)
  | hiccup
  | setNodelay
  | setHwms (inhwm outhwm : Int)
  | sendHwmsToPeer (inhwm outhwm : Int)

def perform (l : Local) : Call → Local
  | .checkRead => l.checkRead.1
  | .read => l.read.1
  | .checkWrite => l.checkWrite.1
  | .write msg => (l.write msg).1
  | .rollback => l.rollback
  | .flush => l.flush
  | .terminate delay => l.terminate delay
  | .hiccup => l.hiccup
  | .setNodelay => l.setNodelay
  | .setHwms inhwm outhwm => l.setHwms inhwm outhwm
  | .sendHwmsToPeer inhwm outhwm => l.sendHwmsToPeer inhwm outhwm

def process (l : Local) : Command → Local
  | .activateRead => l.processActivateRead
  | .activateWrite msgsRead => l.processActivateWrite msgsRead
  | .hiccup pipe => l.processHiccup pipe
  | .pipeTerm => l.processPipeTerm
  | .pipeTermAck => l.processPipeTermAck
  | .pipeHwm inhwm outhwm => l.setHwms inhwm outhwm

/-- Both ends, the queues each of them reads and the commands under way to it. -/
structure System where
  pipe : Side → Pipe
  queue : Side → Nat → Option UPipe
  mailbox : Side → List Command := fun _ => []
  failed : Bool := false

/-- `hwms i` is the mark for messages from end `i`. -/
def pipepair (hwms : Side → Int) (conflate : Side → Bool) : System where
  pipe i := Pipe.new (hwms i.peer) (hwms i) (conflate i)
  queue i := update (fun _ => none) 0 (some (UPipe.new (conflate i)))

namespace System

def view (s : System) (i : Side) : Local where
  pipe := s.pipe i
  inbound := s.queue i
  outbound := s.queue i.peer

/-- What end `i` did becomes part of the system. -/
def commit (s : System) (i : Side) (l : Local) : System where
  pipe j := if j = i then l.pipe else s.pipe j
  queue j := if j = i then l.inbound else l.outbound
  mailbox j := if j = i then s.mailbox j else s.mailbox j ++ l.sent
  failed := s.failed || l.failed

/-- Take the first command from the mailbox of end `i`. -/
def take (s : System) (i : Side) : System :=
  { s with mailbox := fun j => if j = i then (s.mailbox j).tail else s.mailbox j }

end System

inductive Input where
  | call (i : Side) (c : Call)
  | deliver (i : Side)

/-- Users do not call an end that is gone; a command for it is a failure. -/
def step (s : System) (input : Input) : Option System :=
  if s.failed then none
  else
    match input with
    | .call i c =>
      if (s.pipe i).deleted then none else some (s.commit i (perform (s.view i) c))
    | .deliver i =>
      match s.mailbox i with
      | [] => none
      | c :: _ =>
        if (s.pipe i).deleted then some { s with failed := true }
        else some ((s.take i).commit i (process (s.view i) c))

/-- The system after end `i`, whose mailbox is left with `rest`, has done `l`. -/
structure Committed (s : System) (i : Side) (rest : List Command) (l : Local) (t : System) :
    Prop where
  pipe : t.pipe i = l.pipe
  peer : t.pipe i.peer = s.pipe i.peer
  inbound : t.queue i = l.inbound
  outbound : t.queue i.peer = l.outbound
  taken : t.mailbox i = rest
  sent : t.mailbox i.peer = s.mailbox i.peer ++ l.sent
  failed : t.failed = (s.failed || l.failed)

/-- What holds of both ends: what the one that has done something leaves, and the other one with
its queues. -/
theorem Committed.forall_view {s t : System} {i : Side} {rest : List Command} {l : Local}
    {P : Local → Prop} (h : Committed s i rest l t)
    (hown : P { l with sent := [], failed := false })
    (hpeer : P { s.view i.peer with inbound := l.outbound, outbound := l.inbound }) (j : Side) :
    P (t.view j) := by
  unfold System.view
  rcases Side.eq_or_eq_peer i j with rfl | rfl
  · rw [h.pipe, h.inbound, h.outbound]
    exact hown
  · rw [Side.peer_peer, h.peer, h.inbound, h.outbound]
    exact hpeer

theorem Committed.forall_mailbox {s t : System} {i : Side} {rest : List Command} {l : Local}
    {P : Command → Prop} (h : Committed s i rest l t) (hs : ∀ c ∈ s.mailbox i.peer, P c)
    (hrest : ∀ c ∈ rest, P c) (hsent : ∀ c ∈ l.sent, P c) (j : Side) : ∀ c ∈ t.mailbox j, P c := by
  rcases Side.eq_or_eq_peer i j with rfl | rfl
  · rw [h.taken]
    exact hrest
  · rw [h.sent]
    exact forall_mem_append.mpr ⟨hs, hsent⟩

theorem committed_call (s : System) (i : Side) (l : Local) :
    Committed s i (s.mailbox i) l (s.commit i l) := by
  constructor <;> simp [System.commit]

theorem committed_deliver (s : System) (i : Side) (l : Local) :
    Committed s i (s.mailbox i).tail l ((s.take i).commit i l) := by
  constructor <;> simp [System.commit, System.take]

/-- What a step consists of. -/
inductive Acts (s : System) (t : System) : Input → Prop where
  | call {i : Side} {c : Call} (alive : (s.pipe i).deleted = false)
      (h : Committed s i (s.mailbox i) (perform (s.view i) c) t) : Acts s t (.call i c)
  | deliver {i : Side} {c : Command} {rest : List Command} (alive : (s.pipe i).deleted = false)
      (head : s.mailbox i = c :: rest)
      (h : Committed s i rest (process (s.view i) c) t) : Acts s t (.deliver i)
  | late {i : Side} (gone : (s.pipe i).deleted = true) (pending : s.mailbox i ≠ []) :
      Acts s t (.deliver i)

theorem step_acts {s t : System} {input : Input} (h : step s input = some t) :
    s.failed = false ∧ Acts s t input := by
  unfold step at h
  split at h
  · cases h
  rename_i hfailed
  refine ⟨by simpa using hfailed, ?_⟩
  cases input with
  | call i c =>
    dsimp only at h
    split at h
    · cases h
    · rename_i halive
      cases h
      exact .call (by simpa using halive) (committed_call s i _)
  | deliver i =>
    dsimp only at h
    split at h
    · cases h
    rename_i c rest hbox
    split at h
    · rename_i hgone
      exact .late hgone (by rw [hbox]; exact cons_ne_nil c rest)
    rename_i halive
    cases h
    have hcommitted := committed_deliver s i (process (s.view i) c)
    rw [hbox] at hcommitted
    exact .deliver (by simpa using halive) hbox hcommitted

end Uzmq.Pipes
