import Uzmq.Contexts
import Uzmq.RendezvousBalance

/-!
# The reaper is done once

A socket with a pending connection has been counted for a command that is still to come, so that
it is not destroyed. Hence there are sockets when `terminate` makes new ones, and none is made
after the reaper has been asked to stop. The reaper is asked only once, and its own count reaches
zero only when the last `reaped` has come.
-/

namespace Uzmq.Contexts

open Option Function List
open Rendezvous (Ctx)

variable {Addr Socket Conn : Type} [DecidableEq Socket]
variable {s t : State Addr Socket Conn} {x : Socket}

section Connections
variable {r r' : Ctx Addr Socket Conn}

theorem step_frame [DecidableEq Addr] [DecidableEq Conn] {i : Rendezvous.Input Addr Socket Conn}
    (h : Rendezvous.step r i = some r') (hclose : ∀ x, i ≠ .close x) :
    Rendezvous.Frame r (actor i) r' := by
  cases i with
  | bind x addr options =>
    obtain ⟨-, ⟨⟩⟩ := ite_none_right_eq_some.mp h
    exact Rendezvous.bind_frame r x addr options
  | connect x addr options =>
    obtain ⟨-, ⟨⟩⟩ := ite_none_right_eq_some.mp h
    exact Rendezvous.connect_frame r x addr options
  | connectPipes x conn =>
    obtain ⟨-, h⟩ := ite_none_right_eq_some.mp h
    obtain ⟨⟨call, calls⟩, -, h⟩ := bind_eq_some_iff.mp h
    exact { Rendezvous.connectPipes_frame h with }
  | bindPending x =>
    obtain ⟨⟨call, calls⟩, -, h⟩ := bind_eq_some_iff.mp h
    exact { Rendezvous.bindPending_frame h with }
  | unregisterEndpoint x addr =>
    obtain ⟨-, ⟨⟩⟩ := ite_none_right_eq_some.mp h
    unfold Ctx.unregisterEndpoint
    cases r.endpoints addr with
    | none => exact .of_eq rfl rfl
    | some binder =>
      by_cases hsocket : binder.socket = x
      · simp only [hsocket, if_true]
        exact .of_eq rfl rfl
      · simp only [hsocket, if_false]
        exact .of_eq rfl rfl
  | unregisterEndpoints x =>
    obtain ⟨-, ⟨⟩⟩ := ite_none_right_eq_some.mp h
    exact .of_eq rfl rfl
  | processCommand x =>
    obtain ⟨⟨packet, mailboxes⟩, -, h⟩ := bind_eq_some_iff.mp h
    cases h
    obtain ⟨y, command⟩ := packet
    cases command <;> exact .of_eq rfl rfl
  | close x => exact absurd rfl (hclose x)

theorem not_pended (h : Rendezvous.Inv r) (hx : r.processedSeqnum x = r.sentSeqnum x) :
    ∀ p ∈ r.pendingConnections, p.2.endpoint.socket ≠ x := by
  have hbalance := h.balanced x
  unfold Ctx.addressed at hbalance
  have hnone : r.pendingConnections.countP (fun p => p.2.endpoint.socket = x) = 0 := by omega
  intro p hp heq
  exact countP_eq_zero.mp hnone p hp (decide_eq_true heq)

end Connections

section Invariants

def reapOf : ReaperCommand Socket → Option Socket
  | .reap socket => some socket
  | _ => none

/-- The sockets on their way to the reaper and those plugged to it. -/
def queue (s : State Addr Socket Conn) : List Socket :=
  s.reaperMailbox.filterMap reapOf ++ s.reaping

/-- Connections wait only for sockets of the context. -/
structure Links (s : State Addr Socket Conn) : Prop where
  inv : Rendezvous.Inv s.rendezvous
  pending : ∀ p ∈ s.rendezvous.pendingConnections, p.2.endpoint.socket ∈ s.sockets

/-- A socket passes the stages of its life in order. -/
structure Stages (s : State Addr Socket Conn) : Prop where
  nodup : s.sockets.Nodup
  queued : (queue s).Nodup
  held : ∀ x ∈ queue s, x ∈ s.sockets ∧ s.rendezvous.checkTag x = false
  known : ∀ x ∈ s.sockets, x ∈ s.created
  tags : ∀ x, s.rendezvous.checkTag x = false → x ∈ s.created
  kept : ∀ x ∈ s.created, x ∈ s.sockets ∨ x ∈ s.removed
  own : ∀ x, s.own = some x → x ∈ s.sockets ∧ s.rendezvous.checkTag x = true
  count : s.reaper.sockets =
    (s.reaping.length + s.leaving.length + s.reaperMailbox.count .reaped : Nat)

/-- The reaper has been asked to stop. -/
def Stopping (s : State Addr Socket Conn) : Prop :=
  .stop ∈ s.reaperMailbox ∨ s.reaper.terminating = true

/-- The context was terminating before the present call of `terminate`. -/
def saved (s : State Addr Socket Conn) : Bool :=
  match s.term with
  | .connecting saved _ | .binding saved _ _ => saved
  | _ => false

/-- Requests to stop, and the answer. -/
structure Stops (s : State Addr Socket Conn) : Prop where
  asked : s.terminating = true ∨ s.term ≠ .idle → s.asked = true
  lifted : s.locked = true → s.terminating = false
  todo : ∀ saved addr todo, s.term = .connecting saved (addr :: todo) → s.sockets ≠ []
  stopping : Stopping s → s.sockets = [] ∧ (s.terminating = true ∨ saved s = true)
  single : s.reaperMailbox.count .stop + s.reaper.terminating.toNat ≤ 1
  posted : s.posted ≤ 1
  ended : 0 < s.posted → s.reaper.terminating = true ∧ s.reaper.sockets = 0
  mail : s.termMailbox ≤ s.posted

theorem Stops.post (hs : Stops s) (command : ReaperCommand Socket)
    (hcommand : command ≠ .stop) :
    Stops { s with reaperMailbox := s.reaperMailbox ++ [command] } := by
  have hcount : (s.reaperMailbox ++ [command]).count .stop = s.reaperMailbox.count .stop := by
    rw [count_append, count_singleton, if_neg (by simpa using hcommand), Nat.add_zero]
  refine { hs with stopping := ?_, single := hcount.symm ▸ hs.single }
  intro hstop
  refine hs.stopping (hstop.imp_left fun hmem => ?_)
  rcases mem_append.mp hmem with hmem | hmem
  · exact hmem
  · exact absurd (mem_singleton.mp hmem).symm hcommand

/-- Before the first request to terminate nobody asks the reaper to stop. -/
theorem Stops.not_stopping (hs : Stops s) (hterminating : ¬ s.terminating = true)
    (hlocked : ¬ s.locked = true) : ¬ Stopping s := by
  intro hstop
  have hsaved : saved s = true := (hs.stopping hstop).2.resolve_left hterminating
  unfold saved at hsaved
  unfold State.locked at hlocked
  cases hterm : s.term <;> simp_all

structure Inv (s : State Addr Socket Conn) : Prop where
  links : Links s
  stages : Stages s
  stops : Stops s

end Invariants

variable {r : Ctx Addr Socket Conn} {saved' : Bool}

section Sockets

theorem Inv.begin (hs : Inv s) : Inv s.begin := by
  unfold State.begin
  split
  · exact ⟨{ hs.links with }, { hs.stages with }, { hs.stops with }⟩
  · exact hs

omit [DecidableEq Socket] in
theorem begin_frame (s : State Addr Socket Conn) :
    s.begin.created = s.created ∧ s.begin.term = s.term ∧ s.begin.sockets = s.sockets := by
  unfold State.begin
  split <;> exact ⟨rfl, rfl, rfl⟩

theorem Inv.create (hs : Inv s) (hx : x ∉ s.created) (hstop : ¬ Stopping s) (slots : Nat) :
    Inv { s with
      sockets := s.sockets ++ [x], emptySlots := slots, created := s.created ++ [x] } := by
  have hnew : x ∉ s.sockets := fun hmem => hx (hs.stages.known x hmem)
  refine ⟨⟨hs.links.inv, ?_⟩, ?_, ?_⟩
  · intro p hp
    exact mem_append_left _ (hs.links.pending p hp)
  · constructor
    · exact (perm_append_singleton x s.sockets).nodup_iff.mpr
        (nodup_cons.mpr ⟨hnew, hs.stages.nodup⟩)
    · exact hs.stages.queued
    · intro y hy
      exact ⟨mem_append_left _ (hs.stages.held y hy).1, (hs.stages.held y hy).2⟩
    · intro y hy
      rcases mem_append.mp hy with hy | hy
      · exact mem_append_left _ (hs.stages.known y hy)
      · exact mem_append_right _ hy
    · intro y hy
      exact mem_append_left _ (hs.stages.tags y hy)
    · intro y hy
      rcases mem_append.mp hy with hy | hy
      · rcases hs.stages.kept y hy with hy | hy
        · exact .inl (mem_append_left _ hy)
        · exact .inr hy
      · exact .inl (mem_append_right _ hy)
    · intro y hy
      exact ⟨mem_append_left _ (hs.stages.own y hy).1, (hs.stages.own y hy).2⟩
    · exact hs.stages.count
  · exact {
      hs.stops with
      todo := fun _ _ _ _ => append_ne_nil_of_right_ne_nil _ (cons_ne_nil _ _)
      stopping := fun h => absurd h hstop }

theorem Inv.createSocket (hs : Inv s) (hx : x ∉ s.created) (hlocked : ¬ s.locked = true)
    (valid : Bool) : Inv (s.createSocket x valid).1 := by
  obtain ⟨hcreated, hterm, -⟩ := begin_frame s
  unfold State.createSocket
  split
  · exact hs.begin
  rename_i hterminating
  split
  · exact hs.begin
  split
  · refine hs.begin.create (hcreated ▸ hx) ?_ _
    refine hs.begin.stops.not_stopping hterminating ?_
    intro hlocked'
    unfold State.locked at hlocked' hlocked
    rw [hterm] at hlocked'
    exact hlocked hlocked'
  · exact hs.begin

theorem Inv.rendezvous (hs : Inv s) (hx : x ∈ s.sockets) (hinv : Rendezvous.Inv r)
    (hframe : Rendezvous.Frame s.rendezvous x r) : Inv { s with rendezvous := r } := by
  have htag := hframe.checkTag
  refine ⟨⟨hinv, ?_⟩, ?_, { hs.stops with }⟩
  · intro p hp
    rcases hframe.pending p hp with hp | rfl
    · exact hs.links.pending p hp
    · exact hx
  · exact {
      hs.stages with
      held := fun y hy => ⟨(hs.stages.held y hy).1, htag ▸ (hs.stages.held y hy).2⟩
      tags := fun y hy => hs.stages.tags y (htag ▸ hy)
      own := fun y hy => ⟨(hs.stages.own y hy).1, htag ▸ (hs.stages.own y hy).2⟩ }

theorem Inv.close (hs : Inv s) (hx : x ∈ s.sockets) (htag : s.rendezvous.checkTag x = true)
    (hown : s.own ≠ some x) : Inv (s.close x) := by
  have hnew : x ∉ queue s := by
    intro hmem
    cases htag.symm.trans (hs.stages.held x hmem).2
  have hqueue : (queue (s.close x)).Perm (x :: queue s) := by
    unfold queue State.close
    simp only [filterMap_append, append_assoc]
    exact perm_middle
  have hcount : (s.close x).reaperMailbox.count .reaped = s.reaperMailbox.count .reaped := by
    simp [State.close, count_append]
  refine ⟨⟨?_, hs.links.pending⟩, ?_, ?_⟩
  · exact ⟨{ hs.links.inv.placed with }, hs.links.inv.balanced, { hs.links.inv.doors with }⟩
  · exact {
      hs.stages with
      queued := hqueue.nodup_iff.mpr (nodup_cons.mpr ⟨hnew, hs.stages.queued⟩)
      held := by
        intro y hy
        rcases eq_or_ne y x with rfl | heq
        · exact ⟨hx, update_self ..⟩
        · rcases mem_cons.mp (hqueue.mem_iff.mp hy) with h | hy
          · exact absurd h heq
          · exact ⟨(hs.stages.held y hy).1, (update_of_ne heq ..).trans (hs.stages.held y hy).2⟩
      tags := by
        intro y hy
        by_cases heq : y = x
        · exact heq ▸ hs.stages.known x hx
        · exact hs.stages.tags y ((update_of_ne heq ..).symm.trans hy)
      own := by
        intro y hy
        have heq : y ≠ x := by
          rintro rfl
          exact hown hy
        exact ⟨(hs.stages.own y hy).1, (update_of_ne heq ..).trans (hs.stages.own y hy).2⟩
      count := by
        rw [hcount]
        exact hs.stages.count }
  · exact { hs.stops.post (.reap x) nofun with }

end Sockets

section Reaper
variable {command : ReaperCommand Socket} {later : List (ReaperCommand Socket)}

omit [DecidableEq Socket] in
theorem queue_drop (h : s.reaperMailbox = command :: later) (hcommand : reapOf command = none) :
    queue { s with reaperMailbox := later } = queue s := by
  unfold queue
  rw [h, filterMap_cons_none hcommand]

omit [DecidableEq Socket] in
theorem stopping_drop (h : s.reaperMailbox = command :: later)
    (hstop : Stopping { s with reaperMailbox := later }) : Stopping s := by
  rcases hstop with hmem | hreaper
  · exact .inl (h ▸ mem_cons_of_mem _ hmem)
  · exact .inr hreaper

section
variable (hs : Inv s)
include hs

/-- `done` is posted when the reaper has been asked to stop and its count is zero. -/
theorem Inv.sendDone (hposted : s.posted = 0) (hterminating : s.reaper.terminating = true)
    (hsockets : s.reaper.sockets = 0) : Inv s.sendDone := by
  refine ⟨{ hs.links with }, { hs.stages with }, ?_⟩
  exact {
    hs.stops with
    posted := by
      change s.posted + 1 ≤ 1
      omega
    ended := fun _ => ⟨hterminating, hsockets⟩
    mail := Nat.succ_le_succ hs.stops.mail }

/-- Whoever is in the reaper's hands keeps it from being asked to stop. -/
theorem Inv.not_stopping_of_mem (hx : x ∈ queue s) : ¬ Stopping s := by
  intro hstop
  have hsockets := (hs.stops.stopping hstop).1
  have hmem := (hs.stages.held x hx).1
  rw [hsockets] at hmem
  cases hmem

theorem Inv.not_posted (hstop : ¬ s.reaper.terminating = true) : s.posted = 0 := by
  by_contra hposted
  exact hstop (hs.stops.ended (Nat.pos_of_ne_zero hposted)).1

theorem Inv.processStop (h : s.reaperMailbox = .stop :: later) :
    Inv (State.processStop { s with reaperMailbox := later }) := by
  have hsingle := hs.stops.single
  rw [h, count_cons_self] at hsingle
  have hreaper : s.reaper.terminating = false := by
    rw [Bool.eq_false_iff]
    intro hreaper
    rw [hreaper] at hsingle
    simp at hsingle
  have hposted := hs.not_posted (by simp [hreaper])
  have hstopping := hs.stops.stopping (.inl (h ▸ mem_cons_self))
  have hqueue := queue_drop h rfl
  have hcount : s.reaperMailbox.count .reaped = later.count .reaped := by
    rw [h, count_cons_of_ne (by simp)]
  have hinv : Inv { s with
      reaperMailbox := later
      reaper := { s.reaper with terminating := true } } := by
    refine ⟨{ hs.links with }, ?_, ?_⟩
    · exact {
        hs.stages with
        queued := hqueue.symm ▸ hs.stages.queued
        held := fun y hy => hs.stages.held y (hqueue ▸ hy)
        count := hcount ▸ hs.stages.count }
    · exact {
        hs.stops with
        stopping := fun _ => hstopping
        single := by
          change later.count .stop + 1 ≤ 1
          omega
        ended := fun hpos => absurd hposted (Nat.pos_iff_ne_zero.mp hpos) }
  unfold State.processStop
  dsimp only
  split
  · rename_i hzero
    exact hinv.sendDone hposted rfl hzero
  · exact hinv

theorem Inv.processReap (h : s.reaperMailbox = .reap x :: later) :
    Inv (State.processReap { s with reaperMailbox := later } x) := by
  have hqueue : queue s = x :: (later.filterMap reapOf ++ s.reaping) := by
    unfold queue
    rw [h]
    rfl
  have hperm : (queue (State.processReap { s with reaperMailbox := later } x)).Perm (queue s) := by
    rw [hqueue]
    exact perm_middle
  have hstop : ¬ Stopping s := hs.not_stopping_of_mem (hqueue ▸ mem_cons_self)
  have hposted := hs.not_posted fun hreaper => hstop (.inr hreaper)
  have hcount := hs.stages.count
  rw [h, count_cons_of_ne (by simp)] at hcount
  have hsingle := hs.stops.single
  rw [h, count_cons_of_ne (by simp)] at hsingle
  refine ⟨{ hs.links with }, ?_, ?_⟩
  · exact {
      hs.stages with
      queued := hperm.nodup_iff.mpr hs.stages.queued
      held := fun y hy => hs.stages.held y (hperm.mem_iff.mp hy)
      count := by
        simp only [State.processReap, length_cons]
        omega }
  · exact {
      hs.stops with
      stopping := fun hstopping => absurd (stopping_drop h hstopping) hstop
      single := hsingle
      ended := fun hpos => absurd hposted (Nat.pos_iff_ne_zero.mp hpos) }

theorem Inv.processReaped (h : s.reaperMailbox = .reaped :: later) :
    Inv (State.processReaped { s with reaperMailbox := later }) := by
  have hcount := hs.stages.count
  rw [h, count_cons_self] at hcount
  have hposted : s.posted = 0 := by
    by_contra hne
    have hzero := (hs.stops.ended (Nat.pos_of_ne_zero hne)).2
    omega
  have hsingle := hs.stops.single
  rw [h, count_cons_of_ne (by simp)] at hsingle
  have hqueue := queue_drop h rfl
  have hinv : Inv { s with
      reaperMailbox := later
      reaper := { s.reaper with sockets := s.reaper.sockets - 1 } } := by
    refine ⟨{ hs.links with }, ?_, ?_⟩
    · exact {
        hs.stages with
        queued := hqueue.symm ▸ hs.stages.queued
        held := fun y hy => hs.stages.held y (hqueue ▸ hy)
        count := by
          dsimp only
          omega }
    · exact {
        hs.stops with
        stopping := fun hstopping => hs.stops.stopping (stopping_drop h hstopping)
        single := hsingle
        ended := fun hpos => absurd hposted (Nat.pos_iff_ne_zero.mp hpos) }
  unfold State.processReaped
  dsimp only
  split
  · rename_i hzero
    exact hinv.sendDone hposted hzero.2 hzero.1
  · exact hinv

theorem Inv.processCommand (h : s.reaperMailbox = command :: later) :
    Inv (State.processCommand { s with reaperMailbox := later } command) := by
  cases command with
  | stop => exact hs.processStop h
  | reap x => exact hs.processReap h
  | reaped => exact hs.processReaped h

theorem Inv.sendReaped (hx : x ∈ s.leaving) :
    Inv { s with
      leaving := s.leaving.erase x
      reaperMailbox := s.reaperMailbox ++ [.reaped] } := by
  have hlength := length_erase_add_one hx
  refine ⟨{ hs.links with }, ?_, ?_⟩
  · have hqueue : queue { s with
        leaving := s.leaving.erase x
        reaperMailbox := s.reaperMailbox ++ [.reaped] } = queue s := by
      simp [queue, filterMap_cons, reapOf]
    exact {
      hs.stages with
      queued := hqueue.symm ▸ hs.stages.queued
      held := fun y hy => hs.stages.held y (hqueue ▸ hy)
      count := by
        rw [hs.stages.count]
        simp only [count_append, count_singleton_self]
        omega }
  · exact { hs.stops.post .reaped nofun with }

end

end Reaper

section Stopping

theorem Inv.stopReaper (hs : Inv s) (hstop : ¬ Stopping s) (hempty : s.sockets = [])
    (hterminating : s.terminating = true) : Inv s.stopReaper := by
  have hnone : .stop ∉ s.reaperMailbox := fun hmem => hstop (.inl hmem)
  have hreaper : s.reaper.terminating = false :=
    Bool.eq_false_iff.mpr fun hreaper => hstop (.inr hreaper)
  have hqueue : queue s.stopReaper = queue s := by
    simp [queue, State.stopReaper, filterMap_cons, reapOf]
  refine ⟨{ hs.links with }, ?_, ?_⟩
  · exact {
      hs.stages with
      queued := hqueue.symm ▸ hs.stages.queued
      held := fun y hy => hs.stages.held y (hqueue ▸ hy)
      count := by
        change s.reaper.sockets = _
        rw [hs.stages.count]
        simp [State.stopReaper, count_append] }
  · exact {
      hs.stops with
      stopping := fun _ => ⟨hempty, .inl hterminating⟩
      single := by
        have hcount : s.stopReaper.reaperMailbox.count .stop = 1 := by
          simp [State.stopReaper, count_append, count_eq_zero_of_not_mem hnone]
        have hsame : s.stopReaper.reaper.terminating = false := hreaper
        rw [hcount, hsame]
        exact Nat.le_refl 1 }

theorem Inv.stopAll (hs : Inv s) (hterminating : ¬ s.terminating = true)
    (hlocked : ¬ s.locked = true) (hasked : s.asked = true) : Inv s.stopAll := by
  have hstop := hs.stops.not_stopping hterminating hlocked
  have hset : Inv { s with terminating := true } := by
    refine ⟨{ hs.links with }, { hs.stages with }, ?_⟩
    exact {
      hs.stops with
      asked := fun _ => hasked
      lifted := fun h => absurd h hlocked
      stopping := fun h => absurd h hstop }
  unfold State.stopAll
  split
  · rename_i hempty
    exact hset.stopReaper hstop hempty rfl
  · exact hset

theorem Inv.shutdown (hs : Inv s) (hlocked : ¬ s.locked = true) : Inv s.shutdown := by
  have hset : Inv { s with asked := true } :=
    ⟨{ hs.links with }, { hs.stages with }, { hs.stops with asked := fun _ => rfl }⟩
  unfold State.shutdown
  dsimp only
  split
  · rename_i h
    simp only [Bool.and_eq_true, Bool.not_eq_true'] at h
    exact hset.stopAll (by simp [h.2]) hlocked rfl
  · exact hset

theorem Inv.destroySocket (hs : Inv s) (hlocked : ¬ s.locked = true) (hx : x ∈ s.reaping)
    (hseqnum : s.rendezvous.processedSeqnum x = s.rendezvous.sentSeqnum x) :
    Inv (State.destroySocket { s with
      reaping := s.reaping.erase x
      leaving := x :: s.leaving } x) := by
  have hqueue : (queue s).Perm (x :: queue { s with reaping := s.reaping.erase x }) :=
    ((perm_cons_erase hx).append_left _).trans perm_middle
  have hnodup := nodup_cons.mp (hqueue.nodup_iff.mp hs.stages.queued)
  have hmem : x ∈ queue s := hqueue.mem_iff.mpr mem_cons_self
  obtain ⟨hsocket, htag⟩ := hs.stages.held x hmem
  have hstop := hs.not_stopping_of_mem hmem
  have hlength := length_erase_add_one hx
  have herase : ∀ y, y ∈ s.sockets → y ≠ x → y ∈ s.sockets.erase x :=
    fun y hy hne => (mem_erase_of_ne hne).mpr hy
  have hinv : Inv { s with
      reaping := s.reaping.erase x
      leaving := x :: s.leaving
      sockets := s.sockets.erase x
      emptySlots := s.emptySlots + 1
      removed := s.removed ++ [x] } := by
    refine ⟨⟨hs.links.inv, ?_⟩, ?_, ?_⟩
    · intro p hp
      exact herase _ (hs.links.pending p hp) (not_pended hs.links.inv hseqnum p hp)
    · exact {
        hs.stages with
        nodup := hs.stages.nodup.erase x
        queued := hnodup.2
        held := by
          intro y hy
          have hne : y ≠ x := by
            rintro rfl
            exact hnodup.1 hy
          obtain ⟨hsocket', htag'⟩ :=
            hs.stages.held y (hqueue.mem_iff.mpr (mem_cons_of_mem _ hy))
          exact ⟨herase y hsocket' hne, htag'⟩
        known := fun y hy => hs.stages.known y (mem_of_mem_erase hy)
        kept := by
          intro y hy
          by_cases heq : y = x
          · exact .inr (mem_append_right _ (mem_singleton.mpr heq))
          · rcases hs.stages.kept y hy with hy | hy
            · exact .inl (herase y hy heq)
            · exact .inr (mem_append_left _ hy)
        own := by
          intro y hy
          obtain ⟨hsocket', htag'⟩ := hs.stages.own y hy
          refine ⟨herase y hsocket' ?_, htag'⟩
          rintro rfl
          cases htag.symm.trans htag'
        count := by
          rw [hs.stages.count]
          simp only [length_cons]
          omega }
    · exact {
        hs.stops with
        todo := by
          intro saved addr todo hterm
          refine absurd ?_ hlocked
          have hsame : s.term = .connecting saved (addr :: todo) := hterm
          simp [State.locked, hsame]
        stopping := fun h => absurd h hstop }
  unfold State.destroySocket
  dsimp only
  split
  · rename_i hlast
    exact hinv.stopReaper hstop hlast.2 hlast.1
  · exact hinv

end Stopping

section Terminating

section
variable (hs : Inv s)
include hs

/-- The copy of the pending connections is empty if there are no sockets. -/
theorem Inv.terminate (hidle : s.term = .idle) : Inv s.terminate := by
  refine ⟨{ hs.links with }, { hs.stages with own := nofun }, ?_⟩
  exact {
    hs.stops with
    asked := fun _ => rfl
    lifted := fun _ => rfl
    todo := by
      intro saved addr todo hterm hempty
      have haddrs : s.rendezvous.pendingConnections.map Prod.fst = addr :: todo :=
        (Term.connecting.inj hterm).2
      have hmem : addr ∈ s.rendezvous.pendingConnections.map Prod.fst :=
        haddrs ▸ mem_cons_self
      obtain ⟨p, hp, -⟩ := mem_map.mp hmem
      have hsocket : p.2.endpoint.socket ∈ s.sockets := hs.links.pending p hp
      rw [show s.sockets = [] from hempty] at hsocket
      cases hsocket
    stopping := by
      intro hstop
      obtain ⟨hempty, hterminating⟩ := hs.stops.stopping hstop
      refine ⟨hempty, .inr ?_⟩
      rcases hterminating with h | h
      · exact h
      · simp [saved, hidle] at h }

theorem Inv.terminateBind [DecidableEq Addr] (hx : x ∉ s.created) (h : s.terminateBind x = some t) :
    Inv t := by
  unfold State.terminateBind at h
  split at h
  · rename_i saved' addr todo hterm
    obtain ⟨hcreated, hbegin, hsockets⟩ := begin_frame s
    have hlocked : s.begin.locked = true := by simp [State.locked, hbegin, hterm]
    have hterminating := hs.begin.stops.lifted hlocked
    have hstop : ¬ Stopping s.begin := by
      intro hstop
      have hempty := (hs.begin.stops.stopping hstop).1
      exact hs.stops.todo saved' addr todo hterm (hsockets ▸ hempty)
    have htag : s.begin.rendezvous.checkTag x = true := by
      by_contra htag
      exact hx (hcreated ▸ hs.begin.stages.tags x (Bool.eq_false_iff.mpr htag))
    by_cases hslots : s.begin.emptySlots = 0
    · simp [State.createSocket, hterminating, hslots] at h
    have hcreate : s.createSocket x true = ({ s.begin with
        sockets := s.begin.sockets ++ [x]
        emptySlots := s.begin.emptySlots - 1
        created := s.begin.created ++ [x] }, .ok x) := by
      unfold State.createSocket
      rw [if_neg (by simp [hterminating]), if_neg hslots, if_pos rfl]
    rw [hcreate] at h
    cases h
    have hnew := hs.begin.create (hcreated ▸ hx) hstop (s.begin.emptySlots - 1)
    have hmem : x ∈ s.begin.sockets ++ [x] := mem_append_right _ (mem_singleton_self x)
    have hframe := Rendezvous.bind_frame s.begin.rendezvous x addr ⟨false, []⟩
    have hbound := hnew.rendezvous hmem (hnew.links.inv.bind x addr ⟨false, []⟩) hframe
    refine ⟨{ hbound.links with }, ?_, ?_⟩
    · exact {
        hbound.stages with
        own := by
          intro y hy
          cases hy
          exact ⟨hmem, hframe.checkTag ▸ htag⟩ }
    · exact {
        hbound.stops with
        asked := fun _ => hs.begin.stops.asked (.inr (by simp [hbegin, hterm]))
        lifted := fun _ => hterminating
        todo := nofun
        stopping := fun hstop' => absurd hstop' hstop }
  · cases h

theorem Inv.closeOwn {todo : List Addr} (hterm : s.term = .binding saved' x todo)
    (hinv : Rendezvous.Inv r) (hframe : Rendezvous.Frame s.rendezvous x r) :
    Inv (State.close { s with rendezvous := r, term := .connecting saved' todo } x) := by
  have hown : s.own = some x := by simp [State.own, hterm]
  have hlocked : s.locked = true := by simp [State.locked, hterm]
  obtain ⟨hmem, htag⟩ := hs.stages.own x hown
  have hnext := hs.rendezvous hmem hinv hframe
  have hset : Inv { s with rendezvous := r, term := .connecting saved' todo } := by
    refine ⟨{ hnext.links with }, { hnext.stages with own := nofun }, ?_⟩
    exact {
      hnext.stops with
      asked := fun _ => hs.stops.asked (.inr (by simp [hterm]))
      lifted := fun _ => hs.stops.lifted hlocked
      todo := fun _ _ _ _ => ne_nil_of_mem hmem
      stopping := by
        intro hstop
        have hempty := (hs.stops.stopping hstop).1
        exact absurd hempty (ne_nil_of_mem hmem) }
  exact hset.close hmem (hframe.checkTag ▸ htag) nofun

theorem Inv.terminateClose [DecidableEq Addr] [DecidableEq Conn] (h : s.terminateClose = some t) :
    Inv t := by
  unfold State.terminateClose at h
  split at h
  · rename_i saved' y todo hterm
    split at h
    · cases h
      exact hs.closeOwn hterm hs.links.inv (.of_eq rfl rfl)
    · obtain ⟨r, hr, h⟩ := bind_eq_some_iff.mp h
      cases h
      exact hs.closeOwn hterm (hs.links.inv.step hr) (step_frame hr nofun)
  · cases h

theorem Inv.release {term : Term Addr Socket} (hbefore : s.term = .connecting saved' [])
    (hafter : term = .waiting ∨ term = .deleted) : Inv { s with terminating := saved', term } := by
  have hlifted := hs.stops.lifted (by simp [State.locked, hbefore])
  have hasked := hs.stops.asked (.inr (by simp [hbefore]))
  have hstopping : Stopping s → s.sockets = [] ∧ saved' = true := by
    intro hstop
    obtain ⟨hempty, hterminating | hsaved⟩ := hs.stops.stopping hstop
    · cases hlifted.symm.trans hterminating
    · exact ⟨hempty, by simpa [saved, hbefore] using hsaved⟩
  refine ⟨{ hs.links with }, ?_, ?_⟩
  · rcases hafter with rfl | rfl <;> exact { hs.stages with own := nofun }
  exact {
    hs.stops with
    asked := fun _ => hasked
    lifted := by
      rcases hafter with rfl | rfl <;> exact nofun
    todo := by
      rcases hafter with rfl | rfl <;> exact nofun
    stopping := fun hstop => ⟨(hstopping hstop).1, .inl (hstopping hstop).2⟩ }

theorem Inv.terminateWait (h : s.terminateWait = some t) : Inv t := by
  unfold State.terminateWait at h
  split at h
  · rename_i saved' hterm
    split at h
    · cases h
      exact hs.release hterm (.inr rfl)
    split at h
    · rename_i hsaved
      cases h
      exact hsaved ▸ hs.release hterm (.inl rfl)
    rename_i hsaved
    cases h
    have hasked := hs.stops.asked (.inr (by simp [hterm]))
    have hwaiting := hs.release hterm (.inl rfl)
    have hall : State.stopAll { s with terminating := saved', term := .waiting } =
        { s.stopAll with term := .waiting } := by
      unfold State.stopAll
      split <;> rfl
    exact hall ▸ hwaiting.stopAll hsaved nofun hasked
  · cases h

end

end Terminating

section Results

theorem Inv.step [DecidableEq Addr] [DecidableEq Conn] {i : Input Addr Socket Conn} (hs : Inv s)
    (h : step s i = some t) : Inv t := by
  obtain ⟨-, h⟩ := ite_none_left_eq_some.mp h
  cases i with
  | createSocket x valid =>
    obtain ⟨hnot, ⟨⟩⟩ := ite_none_left_eq_some.mp h
    obtain ⟨hlocked, hx⟩ := not_or.mp hnot
    exact hs.createSocket hx hlocked valid
  | rendezvous i =>
    have hopen : ∀ x, i ≠ .close x := by
      rintro x rfl
      cases h
    have hact : act s (.rendezvous i) = if actor i ∈ s.sockets then
        (Rendezvous.step s.rendezvous i).bind fun r => some { s with rendezvous := r }
        else none := by
      cases i <;> first | rfl | exact absurd rfl (hopen _)
    rw [hact] at h
    obtain ⟨hmem, h⟩ := ite_none_right_eq_some.mp h
    obtain ⟨r, hr, ⟨⟩⟩ := bind_eq_some_iff.mp h
    exact hs.rendezvous hmem (hs.links.inv.step hr) (step_frame hr hopen)
  | close x =>
    obtain ⟨⟨hmem, -, htag, hown⟩, ⟨⟩⟩ := ite_none_right_eq_some.mp h
    exact hs.close hmem htag hown
  | processCommand =>
    cases hmailbox : s.reaperMailbox with
    | nil => simp [act, hmailbox] at h
    | cons command later =>
      simp only [act, hmailbox] at h
      cases h
      exact hs.processCommand hmailbox
  | destroySocket x =>
    obtain ⟨⟨hlocked, hmem, hseqnum⟩, ⟨⟩⟩ := ite_none_right_eq_some.mp h
    exact hs.destroySocket hlocked hmem hseqnum
  | sendReaped x =>
    obtain ⟨hmem, ⟨⟩⟩ := ite_none_right_eq_some.mp h
    exact hs.sendReaped hmem
  | shutdown =>
    obtain ⟨hlocked, ⟨⟩⟩ := ite_none_left_eq_some.mp h
    exact hs.shutdown hlocked
  | terminate =>
    obtain ⟨hidle, ⟨⟩⟩ := ite_none_right_eq_some.mp h
    exact hs.terminate hidle
  | terminateBind x =>
    obtain ⟨hx, h⟩ := ite_none_left_eq_some.mp h
    exact hs.terminateBind hx h
  | terminateClose => exact hs.terminateClose h
  | terminateWait => exact hs.terminateWait h
  | interrupt =>
    obtain ⟨hwaiting, ⟨⟩⟩ := ite_none_right_eq_some.mp h
    refine ⟨{ hs.links with }, { hs.stages with own := nofun }, ?_⟩
    exact {
      hs.stops with
      asked := fun h => hs.stops.asked (h.imp_right fun h => absurd rfl h)
      lifted := nofun
      todo := nofun
      stopping := by
        intro hstop
        obtain ⟨hempty, hterminating | hsaved⟩ := hs.stops.stopping hstop
        · exact ⟨hempty, .inl hterminating⟩
        · simp [saved, hwaiting] at hsaved }
  | receiveDone =>
    obtain ⟨⟨hwaiting, -, hempty⟩, ⟨⟩⟩ := ite_none_right_eq_some.mp h
    have hasked := hs.stops.asked (.inr (by simp [hwaiting]))
    refine ⟨{ hs.links with }, { hs.stages with own := nofun }, ?_⟩
    exact {
      hs.stops with
      asked := fun _ => hasked
      lifted := nofun
      todo := nofun
      stopping := by
        intro hstop
        obtain ⟨-, hterminating | hsaved⟩ := hs.stops.stopping hstop
        · exact ⟨hempty, .inl hterminating⟩
        · simp [saved, hwaiting] at hsaved
      mail := Nat.le_trans (Nat.sub_le _ _) hs.stops.mail }

theorem Inv.of_initial (h : Initial s) : Inv s := by
  have hown : s.own = none := by simp [State.own, h.term]
  have hqueue : queue s = [] := by simp [queue, h.reaperMailbox, h.reaping]
  refine ⟨⟨.of_initial h.rendezvous, ?_⟩, ?_, ?_⟩
  · simp [h.rendezvous.pendingConnections]
  · constructor <;> simp [h.sockets, hqueue, h.created, hown, h.checkTag, h.reaper, h.reaping,
      h.leaving, h.reaperMailbox]
  · constructor <;> simp [h.terminating, h.term, h.reaper, h.reaperMailbox, h.posted,
      h.termMailbox, Stopping]

theorem Inv.finished [DecidableEq Addr] [DecidableEq Conn] (hs : Inv s) : Finished s := by
  have hempty : 0 < s.posted → s.sockets = [] :=
    fun hpos => (hs.stops.stopping (.inr (hs.stops.ended hpos).1)).1
  constructor
  · exact hs.stops.posted
  · intro hpos
    rcases (hs.stops.stopping (.inr (hs.stops.ended hpos).1)).2 with hterminating | hsaved
    · exact hs.stops.asked (.inl hterminating)
    · refine hs.stops.asked (.inr ?_)
      intro hidle
      simp [saved, hidle] at hsaved
  · intro hpos
    refine ⟨hempty hpos, ?_⟩
    intro x hx
    rcases hs.stages.kept x hx with hmem | hmem
    · rw [hempty hpos] at hmem
      cases hmem
    · exact hmem
  · intro hwaiting hmail
    have hsockets := hempty (Nat.lt_of_lt_of_le hmail hs.stops.mail)
    simp [Contexts.step, act, State.receiveDone, hwaiting, hmail, hsockets]

variable [DecidableEq Addr] [DecidableEq Conn]

/-- In every run the reaper posts `done` at most once, and when it does, the context was asked to
terminate and all its sockets are gone. -/
theorem finished_of_reach {s : State Addr Socket Conn}
    (h : Runs.Reach Initial Runs.Always step s) : Finished s := by
  have hinv : Inv s := h.invariant (fun _ => Inv.of_initial) fun _ _ _ hs _ => hs.step
  exact hinv.finished

/-- A new context for eight sockets. -/
def start : State Nat Nat Nat where
  starting := true
  terminating := false
  sockets := []
  maxSockets := 8
  emptySlots := 0
  rendezvous := Rendezvous.start
  term := .idle
  reaper := ⟨0, false⟩
  reaperMailbox := []
  reaping := []
  leaving := []
  termMailbox := 0
  asked := false
  posted := 0
  created := []
  removed := []

theorem start_initial : Initial start :=
  ⟨rfl, rfl, rfl, Rendezvous.start_initial, fun _ => rfl, rfl, rfl, rfl, rfl, rfl, rfl, rfl, rfl,
    rfl, rfl⟩

/-- A socket with a pending connection is closed after `shutdown`. The first call of `terminate`
connects it and is interrupted, the second one receives `done`. -/
def closingRun : List (Input Nat Nat Nat) :=
  [.createSocket 1 true, .rendezvous (.connect 1 7 ⟨false, []⟩), .rendezvous (.connectPipes 1 10),
    .shutdown, .close 1, .processCommand, .terminate, .terminateBind 2, .terminateClose,
    .terminateWait, .interrupt, .processCommand, .rendezvous (.processCommand 1),
    .destroySocket 1, .terminate, .terminateWait, .destroySocket 2, .sendReaped 1, .sendReaped 2,
    .processCommand, .processCommand, .processCommand]

theorem closingRun_finished : ∃ s : State Nat Nat Nat,
    (Finished s ∧ Runs.Reach Initial Runs.Always step s) ∧ s.posted = 1 ∧ s.term = .waiting ∧
      s.termMailbox = 1 ∧ s.created = [1, 2] := by
  obtain ⟨s, hreach, hs⟩ := Runs.Reach.of_exec (s := start) (P := fun s =>
    s.posted = 1 ∧ s.term = .waiting ∧ s.termMailbox = 1 ∧ s.created = [1, 2])
    Runs.Always step closingRun (by decide +kernel) start_initial
  exact ⟨s, ⟨finished_of_reach hreach, hreach⟩, hs⟩

end Results

end Uzmq.Contexts
