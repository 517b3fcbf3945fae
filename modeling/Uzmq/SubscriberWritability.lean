import Uzmq.Dishes
import Uzmq.Pipes
import Uzmq.Xsubs

/-!
# Writability of the pipes of a subscriber

Which pipes of a subscriber can be written to is kept twice, as the eligible pipes of the
distributor and in the flag `out_active` of each pipe. A write that fails at the high-water mark
makes the pipe passive and resets the flag, and `activate_write` undoes both. A hiccup sets the
flag but leaves a passive pipe where it is, and then the next `activate_write` finds nothing to do.

The ends of the pipes are those of `pipe_t`. Their peers do what they like: commands come in any
order, and the queues change at any time. The order in which fair queueing reads from the pipes is
left out. No result stands for a failed assertion.
-/

namespace Uzmq.SubscriberWritability

open Option Function
open Message
open Distributors (Content Distributor Ordered)
open Dishes (Dish)
open Pipes (Call Command Local SameOut perform process)
open Xsubs (Xsub)

variable {Pipe : Type} [DecidableEq Pipe]

/-- The sockets that resend their subscriptions. -/
inductive Subscriber (Pipe : Type) where
  | xsub (x : Xsub Pipe)
  | dish (d : Dish Pipe)

/-- What users ask for. -/
inductive Request where
  | send (m : Msg) (c : Content)
  | join (group : List UInt8)
  | leave (group : List UInt8)

def Request.msg : Request → Msg
  | .send m _ => m
  | .join group => Dishes.joinMsg group
  | .leave group => Dishes.leaveMsg group

namespace Subscriber

def dist : Subscriber Pipe → Distributor Pipe
  | .xsub x => x.dist
  | .dish d => d.dist

def xattachPipe (s : Subscriber Pipe) (pipe : Pipe) : Option (Subscriber Pipe × List Msg) :=
  match s with
  | .xsub x => (x.xattachPipe pipe).map fun r => (.xsub r.1, r.2)
  | .dish d => (d.xattachPipe pipe).map fun r => (.dish r.1, r.2)

def xwriteActivated (s : Subscriber Pipe) (pipe : Pipe) : Option (Subscriber Pipe) :=
  match s with
  | .xsub x => (x.xwriteActivated pipe).map .xsub
  | .dish d => (d.xwriteActivated pipe).map .dish

def xpipeTerminated (s : Subscriber Pipe) (pipe : Pipe) : Option (Subscriber Pipe) :=
  match s with
  | .xsub x => (x.xpipeTerminated pipe).map .xsub
  | .dish d => (d.xpipeTerminated pipe).map .dish

def xhiccuped : Subscriber Pipe → Option (List Msg)
  | .xsub x => x.xhiccuped
  | .dish d => some d.xhiccuped

/-- The socket after a request, and the writes. -/
def request (s : Subscriber Pipe) (r : Request) (ok : Nat → Pipe → Bool) :
    Option (Subscriber Pipe × List (Pipe × Bool)) :=
  match s, r with
  | .xsub x, .send m c => (x.xsend m c ok).map fun sent => (.xsub sent.socket, sent.log)
  | .dish d, .join group => (d.xjoin group ok).map fun sent => (.dish sent.socket, sent.log)
  | .dish d, .leave group => (d.xleave group ok).map fun sent => (.dish sent.socket, sent.log)
  -- Groups are for dishes, which send nothing else.
  | s, _ => some (s, [])

end Subscriber

structure State (Pipe : Type) where
  socket : Subscriber Pipe
  ends : Pipe → Local
  immediate : Bool

/-- Write subscriptions to a pipe, those that do not fit being dropped. -/
def announce (l : Local) (msgs : List Msg) : Local :=
  (msgs.foldl (fun l m => (l.write m).1) l).flush

/-- `dist_t::write`, as far as the pipe is concerned. -/
def written (l : Local) (m : Msg) : Local :=
  if (l.write m).2 && !m.flags.more then (l.write m).1.flush else (l.write m).1

namespace State

variable (s : State Pipe)

def items : List Pipe := s.socket.dist.pipes.items

/-- The distributor holds the pipe in its eligible range. -/
def Eligible (pipe : Pipe) : Prop :=
  s.socket.dist.pipes.index pipe < s.socket.dist.eligible
  deriving Decidable

def setEnd (pipe : Pipe) (l : Local) : Option (State Pipe) :=
  if l.failed then none else some { s with ends := update s.ends pipe l }

def attach (pipe : Pipe) (l : Local) : Option (State Pipe) :=
  match s.socket.xattachPipe pipe with
  | none => none
  | some (socket, msgs) => { s with socket := socket }.setEnd pipe (announce l msgs)

/-- The pipes a request is written to. -/
def after (socket : Subscriber Pipe) (m : Msg) (log : List (Pipe × Bool)) : State Pipe :=
  { s with
    socket := socket
    ends := fun q => if q ∈ log.map Prod.fst then written (s.ends q) m else s.ends q }

def request (r : Request) : Option (State Pipe) :=
  match s.socket.request r fun _ q => ((s.ends q).write r.msg).2 with
  | none => none
  | some (socket, log) =>
    if log.all fun x => !(written (s.ends x.1) r.msg).failed then some (s.after socket r.msg log)
    else none

/-- `process_activate_write` and `write_activated` -/
def activateWrite (pipe : Pipe) (msgsRead : Nat) : Option (State Pipe) :=
  let l := s.ends pipe
  if !l.pipe.outActive && l.pipe.state == .active then
    match s.socket.xwriteActivated pipe with
    | none => none
    | some socket => { s with socket := socket }.setEnd pipe (l.processActivateWrite msgsRead)
  else s.setEnd pipe (l.processActivateWrite msgsRead)

/-- `process_hiccup` and `hiccuped` -/
def hiccup (pipe : Pipe) (inpipe : Nat) : Option (State Pipe) :=
  let l := (s.ends pipe).processHiccup inpipe
  if l.pipe.state = .active then
    if s.immediate then s.setEnd pipe (l.terminate false)
    else
      match s.socket.xhiccuped with
      | none => none
      | some msgs => s.setEnd pipe (announce l msgs)
  else s.setEnd pipe l

/-- `process_pipe_term_ack` and `pipe_terminated` -/
def pipeTermAck (pipe : Pipe) : Option (State Pipe) :=
  match s.socket.xpipeTerminated pipe with
  | none => none
  | some socket => { s with socket := socket }.setEnd pipe (s.ends pipe).processPipeTermAck

def deliver (pipe : Pipe) : Command → Option (State Pipe)
  | .activateWrite msgsRead => s.activateWrite pipe msgsRead
  | .hiccup inpipe => s.hiccup pipe inpipe
  | .pipeTermAck => s.pipeTermAck pipe
  | c => s.setEnd pipe (process (s.ends pipe) c)

end State

inductive Input (Pipe : Type) where
  | attach (pipe : Pipe) (l : Local)
  | request (r : Request)
  | call (pipe : Pipe) (c : Call)
  | deliver (pipe : Pipe) (c : Command)
  /-- The peer has written to its queue or read from it. -/
  | peer (pipe : Pipe) (inbound outbound : Nat → Option UPipe)

def step (s : State Pipe) : Input Pipe → Option (State Pipe)
  | .attach pipe l => s.attach pipe l
  | .request r => s.request r
  | .call pipe c =>
    if pipe ∈ s.items then s.setEnd pipe (perform (s.ends pipe) c) else none
  | .deliver pipe c => if pipe ∈ s.items then s.deliver pipe c else none
  | .peer pipe inbound outbound =>
    s.setEnd pipe { s.ends pipe with inbound := inbound, outbound := outbound }

def Initial (s : State Pipe) : Prop := s.socket = .xsub {} ∨ s.socket = .dish {}

/-- A hiccup of a pipe that can be used comes while the pipe is eligible, unless it is the end of
the pipe. -/
def Guard (s : State Pipe) : Input Pipe → Prop
  | .deliver pipe (.hiccup _) =>
    s.Eligible pipe ∨ (s.ends pipe).pipe.state ≠ .active ∨ s.immediate = true
  | _ => True

instance (s : State Pipe) (input : Input Pipe) : Decidable (Guard s input) := by
  unfold Guard
  split <;> infer_instance

/-- The pipes that are held back will be heard of. -/
structure Writable (s : State Pipe) : Prop where
  flag : ∀ q ∈ s.items, (s.ends q).pipe.state = .active → ¬ s.Eligible q →
    (s.ends q).pipe.outActive = false
  resumes : ∀ q ∈ s.items, (s.ends q).pipe.state = .active → ¬ s.Eligible q → ∀ msgsRead, ∃ t,
    step s (.deliver q (.activateWrite msgsRead)) = some t ∧ t.Eligible q

section Ends
variable {l l' : Local}

/-- A pipe that is in use does not take messages. -/
def Blocked (l : Local) : Prop := l.pipe.state = .active → l.pipe.outActive = false

/-- The pipe does not become usable. -/
def Dims (l l' : Local) : Prop :=
  l'.pipe.state = .active →
    l.pipe.state = .active ∧ (l'.pipe.outActive = true → l.pipe.outActive = true)

theorem Dims.blocked (h : Dims l l') (hl : Blocked l) : Blocked l' := by
  intro hstate
  obtain ⟨hactive, hout⟩ := h hstate
  have hfalse := hl hactive
  cases hflag : l'.pipe.outActive with
  | false => rfl
  | true => rw [hout hflag] at hfalse; cases hfalse

theorem Dims.refl (l : Local) : Dims l l := fun h => ⟨h, id⟩

theorem Dims.trans {l'' : Local} (h : Dims l l') (h' : Dims l' l'') : Dims l l'' := by
  intro hstate
  obtain ⟨hactive, hout⟩ := h' hstate
  exact ⟨(h hactive).1, fun hflag => (h hactive).2 (hout hflag)⟩

theorem dims_of_sameOut (h : SameOut l.pipe l'.pipe) : Dims l l' := by
  intro hstate
  obtain ⟨hactive, hout⟩ := h hstate
  exact ⟨hactive, fun hflag => hout.symm.trans hflag⟩

theorem dims_of_pipe_eq (h : l'.pipe = l.pipe) : Dims l l' := by
  intro hstate
  rw [h] at hstate ⊢
  exact ⟨hstate, id⟩

theorem dims_of_state (h : l'.pipe.state ≠ .active) : Dims l l' := fun hstate => absurd hstate h

theorem dims_modify {f : Pipes.Pipe → Pipes.Pipe} (hstate : (f l.pipe).state = l.pipe.state)
    (hout : (f l.pipe).outActive = true → l.pipe.outActive = true) : Dims l (l.modify f) :=
  fun h => ⟨hstate.symm.trans h, hout⟩

section
variable (l : Local)

theorem dims_checkWrite : Dims l l.checkWrite.1 := by
  unfold Local.checkWrite
  split
  · exact .refl l
  split
  · exact dims_modify rfl nofun
  · exact .refl l

theorem dims_countWritten (m : Msg) : Dims l (l.countWritten m) := by
  unfold Local.countWritten
  split
  · exact dims_modify rfl id
  · exact .refl l

theorem dims_write (m : Msg) : Dims l (l.write m).1 := by
  have hwrote := Pipes.write_wrote l m
  generalize l.write m = r at hwrote ⊢
  cases hwrote with
  | refused => exact .refl l
  | full => exact dims_modify rfl nofun
  | lost => exact dims_of_pipe_eq rfl
  | put => exact (dims_of_pipe_eq rfl : Dims l (l.setOut _ _)).trans (dims_countWritten _ m)

theorem dims_stopOutbound : Dims l l.stopOutbound := by
  have hstop : Dims l (l.modify fun p => { p with outActive := false }) := dims_modify rfl nofun
  exact hstop.trans (dims_of_pipe_eq Pipes.writeDelimiter_pipe)

theorem dims_terminate (delay : Bool) : Dims l (l.terminate delay) := by
  have hdelay : Dims l (l.modify fun p => { p with delay := delay }) := dims_modify rfl id
  unfold Local.terminate
  dsimp only
  split
  · exact hdelay
  · exact hdelay
  · exact hdelay
  · exact (dims_of_state nofun : Dims l (Local.requestTerm _)).trans (dims_stopOutbound _)
  · split
    · exact hdelay.trans (dims_stopOutbound _)
    · exact (dims_of_state nofun : Dims l (Local.sendPipeTermAck _ .termAckSent)).trans
        (dims_stopOutbound _)
  · exact (dims_of_state nofun : Dims l (Local.requestTerm _)).trans (dims_stopOutbound _)

end

theorem blocked_terminate (hl : l.pipe.state = .active) (delay : Bool) :
    Blocked (l.terminate delay) := by
  have hend : Blocked (l.modify fun p => { p with delay := delay }).requestTerm.stopOutbound :=
    (dims_stopOutbound _).blocked nofun
  simpa [Local.terminate, Local.modify, hl] using hend

theorem dims_perform (l : Local) (c : Call) : Dims l (perform l c) := by
  cases c with
  | checkRead => exact dims_of_sameOut (Pipes.sameOut_checkRead l)
  | read => exact dims_of_sameOut (Pipes.sameOut_read l)
  | checkWrite => exact dims_checkWrite l
  | write m => exact dims_write l m
  | rollback => exact dims_of_pipe_eq Pipes.rollback_pipe
  | flush => exact dims_of_pipe_eq Pipes.flush_pipe
  | terminate delay => exact dims_terminate l delay
  | hiccup => exact dims_of_sameOut (Pipes.sameOut_hiccup l)
  | setNodelay | setHwms => exact dims_modify rfl id
  | sendHwmsToPeer inhwm outhwm => exact dims_of_pipe_eq rfl

/-- Of the commands only two make a pipe usable. -/
theorem dims_process (l : Local) {c : Command} (hwrite : ∀ msgsRead, c ≠ .activateWrite msgsRead)
    (hhiccup : ∀ inpipe, c ≠ .hiccup inpipe) : Dims l (process l c) := by
  cases c with
  | activateRead => exact dims_of_sameOut (Pipes.sameOut_processActivateRead l)
  | activateWrite msgsRead => exact absurd rfl (hwrite msgsRead)
  | hiccup inpipe => exact absurd rfl (hhiccup inpipe)
  | pipeTerm => exact dims_of_sameOut (Pipes.sameOut_processPipeTerm l)
  | pipeTermAck => exact dims_of_sameOut (Pipes.sameOut_processPipeTermAck l)
  | pipeHwm inhwm outhwm => exact dims_modify rfl id

theorem dims_written (l : Local) (m : Msg) : Dims l (written l m) := by
  unfold written
  split
  · exact (dims_write l m).trans (dims_of_pipe_eq Pipes.flush_pipe)
  · exact dims_write l m

/-- A pipe that does not take a message is blocked afterwards. -/
theorem blocked_of_written {m : Msg} (hnot : (l.write m).2 = false)
    (hfailed : (written l m).failed = false) : Blocked (written l m) := by
  have heq : written l m = (l.write m).1 := by simp [written, hnot]
  rw [heq] at hfailed ⊢
  exact Pipes.write_refused l m hnot hfailed

end Ends

variable {r : Request} {l : Local}

section Sockets
variable {s t : Subscriber Pipe} {pipe : Pipe}

theorem dist_of_xattachPipe {msgs : List Msg} (h : s.xattachPipe pipe = some (t, msgs)) :
    s.dist.attach pipe = some t.dist := by
  cases s with
  | xsub x =>
    obtain ⟨⟨x', written⟩, hx, heq⟩ := map_eq_some_iff.mp h
    cases heq
    unfold Xsub.xattachPipe at hx
    split at hx
    · cases hx
    split at hx
    · cases hx
    · rename_i dist hdist
      obtain ⟨topics, -, hpair⟩ := map_eq_some_iff.mp hx
      cases hpair
      exact hdist
  | dish d =>
    obtain ⟨⟨d', written⟩, hd, heq⟩ := map_eq_some_iff.mp h
    cases heq
    unfold Dish.xattachPipe at hd
    split at hd
    · cases hd
    · obtain ⟨dist, hdist, hpair⟩ := map_eq_some_iff.mp hd
      cases hpair
      exact hdist

theorem dist_of_xpipeTerminated (h : s.xpipeTerminated pipe = some t) :
    s.dist.pipeTerminated pipe = some t.dist := by
  cases s with
  | xsub x =>
    obtain ⟨x', hx, rfl⟩ := map_eq_some_iff.mp h
    unfold Xsub.xpipeTerminated at hx
    split at hx
    · cases hx
    · obtain ⟨dist, hdist, rfl⟩ := map_eq_some_iff.mp hx
      exact hdist
  | dish d =>
    obtain ⟨d', hd, rfl⟩ := map_eq_some_iff.mp h
    unfold Dish.xpipeTerminated at hd
    split at hd
    · cases hd
    · obtain ⟨dist, hdist, rfl⟩ := map_eq_some_iff.mp hd
      exact hdist

theorem dist_xwriteActivated (s : Subscriber Pipe) (pipe : Pipe) :
    (s.xwriteActivated pipe).map Subscriber.dist = s.dist.activated pipe := by
  cases s with
  | xsub x =>
    change (Option.map _ (Option.map _ _)).map _ = x.dist.activated pipe
    cases x.dist.activated pipe <;> rfl
  | dish d =>
    change (Option.map _ (Option.map _ _)).map _ = d.dist.activated pipe
    cases d.dist.activated pipe <;> rfl

/-- The pipes are as before, or a message was sent to all of them. -/
theorem dist_of_request {ok : Nat → Pipe → Bool} {log : List (Pipe × Bool)}
    (h : s.request r ok = some (t, log)) :
    (t.dist = s.dist ∧ log = []) ∨
      ∃ m c sent, s.dist.sendToAll m c ok = some sent ∧ t.dist = sent.dist ∧ log = sent.log := by
  have hannounce {d : Dish Pipe} {groups : List (List UInt8)} {m : Msg} {sent : Dishes.Sent Pipe}
      (h : d.announce groups m ok = some sent) :
      ∃ m c r, d.dist.sendToAll m c ok = some r ∧ sent.socket.dist = r.dist ∧ sent.log = r.log := by
    obtain ⟨r, hr, rfl⟩ := map_eq_some_iff.mp h
    exact ⟨m, {}, r, hr, rfl, rfl⟩
  cases s with
  | xsub x =>
    cases r with
    | send m c =>
      obtain ⟨sent, hsent, heq⟩ := map_eq_some_iff.mp h
      cases heq
      rcases Xsubs.of_xsend hsent with hsame | ⟨r, hr, hdist, hlog⟩
      · exact .inl hsame
      · exact .inr ⟨m, c, r, hr, hdist, hlog⟩
    | join | leave =>
      cases h
      exact .inl ⟨rfl, rfl⟩
  | dish d =>
    cases r with
    | send m c =>
      cases h
      exact .inl ⟨rfl, rfl⟩
    | join group =>
      obtain ⟨sent, hsent, heq⟩ := map_eq_some_iff.mp h
      cases heq
      unfold Dish.xjoin at hsent
      split at hsent
      · cases hsent
        exact .inl ⟨rfl, rfl⟩
      · exact .inr (hannounce hsent)
    | leave group =>
      obtain ⟨sent, hsent, heq⟩ := map_eq_some_iff.mp h
      cases heq
      unfold Dish.xleave at hsent
      split at hsent
      · cases hsent
        exact .inl ⟨rfl, rfl⟩
      · exact .inr (hannounce hsent)

end Sockets

section Steps
variable {s t : State Pipe} {pipe : Pipe}

/-- The flag agrees with the distributor at each pipe that is held back. -/
structure Inv (s : State Pipe) : Prop where
  ordered : Ordered s.socket.dist
  blocked : ∀ q ∈ s.items, ¬ s.Eligible q → Blocked (s.ends q)
  sound : ∀ q ∈ s.items, (s.ends q).failed = false

theorem inv_setEnd (hset : s.setEnd pipe l = some t) (hord : Ordered s.socket.dist)
    (hown : pipe ∈ s.items → ¬ s.Eligible pipe → Blocked l) (hrest : ∀ q ∈ s.items, q ≠ pipe →
      (¬ s.Eligible q → Blocked (s.ends q)) ∧ (s.ends q).failed = false) : Inv t := by
  unfold State.setEnd at hset
  split at hset
  · cases hset
  rename_i hfailed
  cases hset
  refine ⟨hord, ?_, ?_⟩
  · intro q hq
    rcases eq_or_ne q pipe with rfl | heq
    · dsimp only
      rw [update_self]
      exact hown hq
    · dsimp only
      rw [update_of_ne heq]
      exact (hrest q hq heq).1
  · intro q hq
    rcases eq_or_ne q pipe with rfl | heq
    · simpa using hfailed
    · simpa [heq] using (hrest q hq heq).2

/-- Something happens to one of the pipes that does not make it usable. -/
theorem Inv.setEnd (h : Inv s) (hin : pipe ∈ s.items) (hset : s.setEnd pipe l = some t)
    (hl : ¬ s.Eligible pipe → Blocked (s.ends pipe) → Blocked l) : Inv t :=
  inv_setEnd hset h.ordered (fun _ hnot => hl hnot (h.blocked pipe hin hnot))
    fun q hq _ => ⟨h.blocked q hq, h.sound q hq⟩

theorem Inv.attach (h : Inv s) (hstep : s.attach pipe l = some t) : Inv t := by
  unfold State.attach at hstep
  split at hstep
  · cases hstep
  rename_i socket msgs hsocket
  have hattach := dist_of_xattachPipe hsocket
  have hnew : pipe ∉ s.items := by
    unfold Distributor.attach at hattach
    split at hattach
    · cases hattach
    · rename_i pipes hpush
      exact (Slots.pushed_of_push hpush).new
  obtain ⟨d', hd', hshows⟩ := h.ordered.shows.attach hnew
  cases hattach.symm.trans hd'
  refine inv_setEnd hstep hshows.ordered ?_ ?_
  · intro _ hnot
    exact absurd ((hshows.eligible pipe).mpr (.inr rfl)) hnot
  · intro q hq hne
    have hold : q ∈ s.items := ((hshows.attached q).mp hq).resolve_right hne
    refine ⟨fun hnot => h.blocked q hold fun helig => hnot ?_, h.sound q hold⟩
    exact (hshows.eligible q).mpr (.inl helig)

section
variable (h : Inv s) (hin : pipe ∈ s.items)
include h hin

theorem Inv.activateWrite {msgsRead : Nat} (hstep : s.activateWrite pipe msgsRead = some t) :
    Inv t := by
  unfold State.activateWrite at hstep
  dsimp only at hstep
  split at hstep
  · split at hstep
    · cases hstep
    rename_i socket hsocket
    have hdist : s.socket.dist.activated pipe = some socket.dist := by
      rw [← dist_xwriteActivated, hsocket]
      rfl
    obtain ⟨d', hd', hdone⟩ := h.ordered.activated hin
    cases hdist.symm.trans hd'
    refine inv_setEnd hstep hdone.ordered (fun _ hnot => absurd hdone.own hnot) ?_
    intro q hq _
    have hold : q ∈ s.items := (hdone.mem q).mp hq
    exact ⟨fun hnot => h.blocked q hold fun helig => hnot (hdone.eligible q helig), h.sound q hold⟩
  · rename_i hnot
    refine h.setEnd hin hstep ?_
    intro _ hblocked
    have hsame : (s.ends pipe).processActivateWrite msgsRead =
        (s.ends pipe).modify fun p => { p with peersMsgsRead := msgsRead } := if_neg hnot
    rw [hsame]
    exact hblocked

/-- If the pipe is held back and in use, the guard leaves only its end. -/
theorem Inv.hiccup {inpipe : Nat} (hguard : Guard s (.deliver pipe (.hiccup inpipe)))
    (hstep : s.hiccup pipe inpipe = some t) : Inv t := by
  have hstate : ((s.ends pipe).processHiccup inpipe).pipe.state = (s.ends pipe).pipe.state := by
    unfold Local.processHiccup
    split
    · rfl
    · split <;> rfl
  unfold State.hiccup at hstep
  dsimp only at hstep
  split at hstep
  · rename_i hactive
    split at hstep
    · exact h.setEnd hin hstep fun _ _ => blocked_terminate hactive false
    rename_i himmediate
    split at hstep
    · cases hstep
    refine h.setEnd hin hstep fun hnot _ => ?_
    rcases hguard with helig | hdead | hend
    · exact absurd helig hnot
    · exact absurd (hstate.symm.trans hactive) hdead
    · exact absurd hend himmediate
  · rename_i hactive
    exact h.setEnd hin hstep fun _ _ hagain => absurd hagain hactive

theorem Inv.pipeTermAck (hstep : s.pipeTermAck pipe = some t) : Inv t := by
  unfold State.pipeTermAck at hstep
  split at hstep
  · cases hstep
  rename_i socket hsocket
  have hdist := dist_of_xpipeTerminated hsocket
  obtain ⟨d', hd', hshows⟩ := h.ordered.shows.pipeTerminated hin
  cases hdist.symm.trans hd'
  refine inv_setEnd hstep hshows.ordered ?_ ?_
  · intro hgone
    exact absurd rfl ((hshows.attached pipe).mp hgone).2
  · intro q hq hne
    have hold : q ∈ s.items := ((hshows.attached q).mp hq).1
    refine ⟨fun hnot => h.blocked q hold fun helig => hnot ?_, h.sound q hold⟩
    exact (hshows.eligible q).mpr ⟨helig, hne⟩

end

section After
variable {socket : Subscriber Pipe} {m : Msg} {log : List (Pipe × Bool)} {q : Pipe}

theorem ends_after_mem (h : q ∈ log.map Prod.fst) :
    (s.after socket m log).ends q = written (s.ends q) m := if_pos h

theorem ends_after_not_mem (h : q ∉ log.map Prod.fst) :
    (s.after socket m log).ends q = s.ends q := if_neg h

theorem dims_after (socket : Subscriber Pipe) (m : Msg) (log : List (Pipe × Bool)) (q : Pipe) :
    Dims (s.ends q) ((s.after socket m log).ends q) := by
  by_cases h : q ∈ log.map Prod.fst
  · rw [ends_after_mem h]
    exact dims_written _ m
  · rw [ends_after_not_mem h]
    exact .refl _

end After

/-- The pipes that have not taken a message are blocked and held back. -/
theorem Inv.request (h : Inv s) (hstep : s.request r = some t) : Inv t := by
  unfold State.request at hstep
  split at hstep
  · cases hstep
  rename_i socket log hsocket
  split at hstep
  · rename_i hsound
    cases hstep
    have hwritten : ∀ x ∈ log, (written (s.ends x.1) r.msg).failed = false := by
      simpa using hsound
    rcases dist_of_request hsocket with ⟨hdist, rfl⟩ | ⟨m, c, sent, hsent, hdist, rfl⟩
    · have hitems : (s.after socket r.msg []).items = s.items := by
        simp [State.items, State.after, hdist]
      have helig (q : Pipe) : (s.after socket r.msg []).Eligible q ↔ s.Eligible q := by
        simp [State.Eligible, State.after, hdist]
      refine ⟨?_, ?_, ?_⟩
      · exact hdist ▸ h.ordered
      · intro q hq hnot
        exact h.blocked q (hitems ▸ hq) fun hold => hnot ((helig q).mpr hold)
      · intro q hq
        exact h.sound q (hitems ▸ hq)
    · obtain ⟨sent', hsent', hsends⟩ :=
        h.ordered.shows.all.sendToMatching m c fun _ q => ((s.ends q).write r.msg).2
      cases hsent.symm.trans hsent'
      have hshows := hdist ▸ hsends.shows
      refine ⟨hshows.ordered, ?_, ?_⟩
      · intro q hq hnot
        have hold : q ∈ s.items := (hshows.attached q).mp hq
        by_cases hfail : (q, false) ∈ sent.log
        · obtain ⟨k, hk⟩ := List.mem_iff_getElem?.mp hfail
          have hin : q ∈ sent.log.map Prod.fst := List.mem_map.mpr ⟨_, hfail, rfl⟩
          rw [ends_after_mem hin]
          exact blocked_of_written (hsends.result k _ hk).symm (hwritten _ hfail)
        · refine (dims_after socket r.msg sent.log q).blocked (h.blocked q hold fun helig => ?_)
          exact hnot ((hshows.eligible q).mpr ⟨helig, hfail⟩)
      · intro q hq
        by_cases hin : q ∈ sent.log.map Prod.fst
        · obtain ⟨x, hx, rfl⟩ := List.mem_map.mp hin
          rw [ends_after_mem hin]
          exact hwritten x hx
        · rw [ends_after_not_mem hin]
          exact h.sound q ((hshows.attached q).mp hq)
  · cases hstep

theorem Inv.step {input : Input Pipe} (h : Inv s) (hguard : Guard s input)
    (hstep : step s input = some t) : Inv t := by
  cases input with
  | attach pipe l => exact h.attach hstep
  | request r => exact h.request hstep
  | call pipe c =>
    obtain ⟨hin, hset⟩ := ite_none_right_eq_some.mp hstep
    exact h.setEnd hin hset fun _ => (dims_perform _ c).blocked
  | deliver pipe c =>
    obtain ⟨hin, hdeliver⟩ := ite_none_right_eq_some.mp hstep
    have hother (hset : s.setEnd pipe (process (s.ends pipe) c) = some t)
        (hwrite : ∀ msgsRead, c ≠ .activateWrite msgsRead)
        (hhiccup : ∀ inpipe, c ≠ .hiccup inpipe) :
        Inv t := h.setEnd hin hset fun _ => (dims_process _ hwrite hhiccup).blocked
    cases c with
    | activateRead | pipeTerm | pipeHwm => exact hother hdeliver nofun nofun
    | activateWrite msgsRead => exact h.activateWrite hin hdeliver
    | hiccup inpipe => exact h.hiccup hin hguard hdeliver
    | pipeTermAck => exact h.pipeTermAck hin hdeliver
  | peer pipe inbound outbound =>
    by_cases hin : pipe ∈ s.items
    · exact h.setEnd hin hstep fun _ => id
    · refine inv_setEnd hstep h.ordered (fun hagain => absurd hagain hin) ?_
      intro q hq _
      exact ⟨h.blocked q hq, h.sound q hq⟩

theorem Inv.resumes (h : Inv s) (hin : pipe ∈ s.items) (hstate : (s.ends pipe).pipe.state = .active)
    (hnot : ¬ s.Eligible pipe) (msgsRead : Nat) :
    ∃ t, SubscriberWritability.step s (.deliver pipe (.activateWrite msgsRead)) = some t ∧
      t.Eligible pipe := by
  have hout := h.blocked pipe hin hnot hstate
  obtain ⟨d', hd', hdone⟩ := h.ordered.activated hin
  obtain ⟨socket, hsocket, rfl⟩ :=
    map_eq_some_iff.mp ((dist_xwriteActivated s.socket pipe).trans hd')
  have hfailed : ((s.ends pipe).processActivateWrite msgsRead).failed = false := by
    unfold Local.processActivateWrite
    dsimp only
    split <;> exact h.sound pipe hin
  refine ⟨{ s with
    socket := socket
    ends := update s.ends pipe ((s.ends pipe).processActivateWrite msgsRead) }, ?_,
    hdone.own⟩
  simp [SubscriberWritability.step, hin, State.deliver, State.activateWrite, hout, hstate, hsocket,
    State.setEnd, hfailed]

end Steps

theorem inv_initial {s : State Pipe} (h : Initial s) : Inv s := by
  have hdist : s.socket.dist = {} := by
    rcases h with h | h <;> rw [h] <;> rfl
  have hitems : s.items = [] := by
    rw [State.items, hdist]
  refine ⟨?_, ?_, ?_⟩
  · rw [hdist]
    exact Distributors.shows_new.ordered
  · intro q hq
    simp [hitems] at hq
  · intro q hq
    simp [hitems] at hq

/-- As long as hiccups come to eligible pipes, every pipe that is held back has its flag reset,
and the next `activate_write` makes it eligible. -/
theorem writable_of_reach {s : State Pipe} (h : Runs.Reach Initial Guard step s) : Writable s := by
  have hinv : Inv s := h.invariant (fun _ => inv_initial) fun _ _ _ hs hguard hstep =>
    hs.step hguard hstep
  constructor
  · intro q hq hstate hnot
    exact hinv.blocked q hq hnot hstate
  · intro q hq hstate hnot
    exact hinv.resumes hq hstate hnot

/-- An end that may have two messages under way. -/
def connection : Local where
  pipe := .new 0 2 false
  inbound := update (fun _ => none) 0 (some (.new false))
  outbound := update (fun _ => none) 0 (some (.new false))

/-- The peer has created its next queue, and in the old one there are the given messages. -/
def reconnects (sent : UPipe) : Input Nat :=
  .peer 0 connection.inbound (update (update (fun _ => none) 0 (some sent)) 1 (some (.new false)))

def subscribes (topic : UInt8) : Msg := { data := [1, topic] }

def cancels (topic : UInt8) : Msg := { data := [0, topic] }

/-- A hiccup comes to an eligible pipe, which then becomes full. -/
def earlyRun : List (Input Nat) :=
  [.attach 0 connection, reconnects (.new false), .deliver 0 (.hiccup 1),
    .request (.send (subscribes 1) {}), .request (.send (cancels 1) {}),
    .request (.send (subscribes 2) {})]

theorem earlyRun_writable :
    ∃ s, Runs.Reach Initial Guard step s ∧ Writable s ∧
      0 ∈ s.items ∧ (s.ends 0).pipe.state = .active ∧ ¬ s.Eligible 0 := by
  refine Runs.Reach.of_exec_left (s := ⟨.xsub {}, fun _ => connection, false⟩) Guard step earlyRun
    ?_ (.inl rfl) fun s hs => writable_of_reach hs
  decide +kernel

/-- A subscription and its end are under way. -/
def busy : UPipe :=
  ((((UPipe.new false).write (subscribes 1) false nofun).flush).write (cancels 1) false nofun).flush

/-- The hiccup comes to the pipe when it is full. -/
def lateRun : List (Input Nat) :=
  [.attach 0 connection, .request (.send (subscribes 1) {}), .request (.send (cancels 1) {}),
    .request (.send (subscribes 2) {}), reconnects busy, .deliver 0 (.hiccup 1)]

/-- The pipe is held back, its flag is set, and it stays held back after `activate_write`. -/
theorem hiccup_while_full :
    ∃ s : State Nat, Runs.Reach Initial Runs.Always step s ∧
      0 ∈ s.items ∧ (s.ends 0).pipe.state = .active ∧ ¬ s.Eligible 0 ∧
      (s.ends 0).pipe.outActive = true ∧
      ∃ t ∈ step s (.deliver 0 (.activateWrite 1)), ¬ t.Eligible 0 := by
  refine Runs.Reach.of_exec (s := ⟨.xsub {}, fun _ => connection, false⟩) Runs.Always step lateRun
    ?_ (.inl rfl)
  decide +kernel

end Uzmq.SubscriberWritability
