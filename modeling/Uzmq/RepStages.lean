import Uzmq.RepPipes

/-!
# Stages of a request

A request is followed from the moment its first part has been read until the reply is complete.
The stages say what the flags of the router and the socket mean at each point: while a request is
read or answered the router has either the pipe of its peer, in which the envelope so far is
waiting, or none, and then the pipe could not be written to at some time.
-/

namespace Uzmq.Reps

open List Message
open Routers (Router Sink Table Frame Fetched idMsg)

variable {Pipe : Type} [DecidableEq Pipe]

/-- Where a request is. -/
inductive Stage (Pipe : Type) where
  | idle
  /-- `xhas_in` has read the first part. -/
  | held (p : Pipe) (m : Msg)
  /-- The routing id was pushed, and the first part was read. -/
  | addressed (p : Pipe) (m : Msg)
  | envelope (p : Pipe) (frames : List Msg)
  | body (p : Pipe) (frames : List Msg)
  | reply (p : Pipe) (frames : List Msg)

namespace Stage

/-- The pipe of a message that is to be continued. -/
def mid : Stage Pipe → Option Pipe
  | .held p m => if m.flags.more then some p else none
  | .addressed p m => if m.flags.more then some p else none
  | .envelope p _ => some p
  | .body p _ => some p
  | _ => none

/-- The parts of an incomplete request that were read from a pipe. -/
def pending (p : Pipe) : Stage Pipe → List Msg
  | .held q m => if p = q then [m] else []
  | .addressed q m => if p = q then [m] else []
  | .envelope q frames => if p = q then frames else []
  | .body q frames => if p = q then frames else []
  | _ => []

/-- The request that is being answered. -/
def replying (p : Pipe) : Stage Pipe → List (List Msg)
  | .reply q frames => if p = q then [frames] else []
  | _ => []

end Stage

/-- Nothing unfinished is in the pipes. -/
def Clear (s : System Pipe) : Prop :=
  ∀ q, (s.rep.router.sinks q).alive = true → (s.rep.router.sinks q).queue.unfinished = []

/-- The router has the pipe of the peer, and what was pushed waits there; or it has none, and the
pipe could not be written to. -/
structure Out (s : System Pipe) (p : Pipe) (pushed : List Msg) : Prop where
  others : ∀ q, q ≠ p → (s.rep.router.sinks q).alive = true →
    (s.rep.router.sinks q).queue.unfinished = []
  own : s.rep.router.currentOut = some p ∧ ((s.rep.router.sinks p).alive = true →
      (s.rep.router.sinks p).queue.unfinished = pushed) ∨
    s.rep.router.currentOut = none ∧ s.writable = false ∧ ((s.rep.router.sinks p).alive = true →
      (s.rep.router.sinks p).queue.unfinished = [])
  writable : s.writable = true → (s.rep.router.sinks p).Writable

/-- There is no request. -/
structure Free (s : System Pipe) : Prop where
  request : s.request = none
  reply : s.reply = []
  requestBegins : s.rep.requestBegins = true
  sendingReply : s.rep.sendingReply = false
  moreOut : s.rep.router.moreOut = false
  currentOut : s.rep.router.currentOut = none
  clear : Clear s

/-- The first part of a request waits in the router. -/
structure First (s : System Pipe) (p : Pipe) (m : Msg) : Prop where
  prefetched : s.rep.router.prefetched = true
  prefetchedMsg : s.rep.router.prefetchedMsg = m
  currentIn : s.rep.router.currentIn = some p
  part : m.flags.routingId = false

structure Busy (s : System Pipe) (p : Pipe) (frames : List Msg) (begins sending moreIn : Bool) :
    Prop where
  request : s.request = some (p, frames)
  requestBegins : s.rep.requestBegins = begins
  sendingReply : s.rep.sendingReply = sending
  prefetched : s.rep.router.prefetched = false
  moreIn : s.rep.router.moreIn = moreIn
  moreOut : s.rep.router.moreOut = true

/-- What the flags mean at each stage. -/
inductive Shows (s : System Pipe) : Stage Pipe → Prop where
  | idle (free : Free s) (prefetched : s.rep.router.prefetched = false)
      (moreIn : s.rep.router.moreIn = false) : Shows s .idle
  | held {p : Pipe} {m : Msg} (free : Free s) (first : First s p m)
      (routingIdSent : s.rep.router.routingIdSent = false)
      (moreIn : s.rep.router.moreIn = false)
      (more : s.rep.router.prefetchedId.flags.more = true)
      (id : s.rep.router.prefetchedId.data ≠ [])
      (own : m.flags.more = true → s.rep.router.prefetchedId.data = s.rep.router.routingId p) :
      Shows s (.held p m)
  | addressed {p : Pipe} {m : Msg} (first : First s p m)
      (routingIdSent : s.rep.router.routingIdSent = true) (call : s.rep.call = some .recv)
      (request : s.request = some (p, [])) (reply : s.reply = [])
      (requestBegins : s.rep.requestBegins = true) (sendingReply : s.rep.sendingReply = false)
      (moreOut : s.rep.router.moreOut = true) (clear : Clear s)
      (out : m.flags.more = true → Out s p []) : Shows s (.addressed p m)
  | envelope {p : Pipe} {frames : List Msg} (busy : Busy s p frames true false true)
      (call : s.rep.call = some .recv) (reply : s.reply = []) (out : Out s p frames)
      (more : ∀ m ∈ frames, m.flags.more = true) (labels : ∀ m ∈ frames, m.data ≠ []) :
      Shows s (.envelope p frames)
  | body {p : Pipe} {frames : List Msg} (busy : Busy s p frames false false true)
      (reply : s.reply = []) (out : Out s p (Reps.envelope frames))
      (more : ∀ m ∈ frames, m.flags.more = true) (bottom : ∃ m ∈ frames, m.data = []) :
      Shows s (.body p frames)
  | reply {p : Pipe} {frames : List Msg} (busy : Busy s p frames true true false)
      (call : s.rep.call = none) (out : Out s p (Reps.envelope frames ++ s.reply))
      (complete : Complete frames) (wellFormed : WellFormed frames) : Shows s (.reply p frames)

/-- The histories at a stage. -/
structure Recorded (s : System Pipe) (stage : Stage Pipe) : Prop where
  pending : ∀ p, content (s.rep.router.queues.got p) = (s.taken p).flatten ++ stage.pending p
  complete : ∀ p, ∀ request ∈ s.taken p, Complete request
  requests : ∀ p, ((s.exchangesOf p).map (·.request) ++ stage.replying p).Sublist (s.taken p)
  wellFormed : ∀ e ∈ s.exchanges, WellFormed e.request
  peers : ∀ e ∈ s.exchanges, e.peer ∈ s.known
  finished : ∀ q, (s.rep.router.sinks q).queue.finished = []
  flushed : ∀ p, ∃ delivered : List (Exchange Pipe),
    (s.rep.router.sinks p).queue.flushed = delivered.flatMap Exchange.message ∧
      delivered.Sublist (s.exchangesOf p) ∧
      ((s.exchangesOf p).filter (·.writable)).Sublist delivered

structure At (s : System Pipe) (stage : Stage Pipe) : Prop where
  link : Link s.rep.router stage.mid s.known
  shows : Shows s stage
  recorded : Recorded s stage
  peer : ∀ p frames, s.request = some (p, frames) → p ∈ s.known

variable {frames pushed : List Msg} {m : Msg} {begins sending moreIn : Bool}

section Observe
variable (s : System Pipe)

omit [DecidableEq Pipe]

/-- Only `writable` depends on what is seen. -/
theorem observe_eq : s.observe = { s with writable := s.observe.writable } := by
  unfold System.observe
  split <;> rfl

theorem observe_rep : s.observe.rep = s.rep := by rw [observe_eq]

theorem observe_known : s.observe.known = s.known := by rw [observe_eq]

theorem observe_request : s.observe.request = s.request := by rw [observe_eq]

theorem observe_reply : s.observe.reply = s.reply := by rw [observe_eq]

theorem observe_writable {p : Pipe} (h : s.request = some (p, frames)) :
    s.observe.writable = (s.writable && decide (s.rep.router.sinks p).Writable) := by
  unfold System.observe
  rw [h]

end Observe

section Stages
variable {s t : System Pipe} {stage : Stage Pipe} {p : Pipe} {frames : List Msg}

section
omit [DecidableEq Pipe]

theorem Clear.observe (h : Clear s) : Clear s.observe := by
  rw [observe_eq]
  exact h

theorem First.observe (h : First s p m) : First s.observe p m := by
  rw [observe_eq]
  exact { h with }

theorem Busy.observe (h : Busy s p frames begins sending moreIn) :
    Busy s.observe p frames begins sending moreIn := by
  rw [observe_eq]
  exact { h with }

/-- What is to be known for `Out` before the pipe is looked at. -/
theorem out_observe (hrequest : s.request = some (p, frames))
    (others : ∀ q, q ≠ p → (s.rep.router.sinks q).alive = true →
      (s.rep.router.sinks q).queue.unfinished = [])
    (own : s.rep.router.currentOut = some p ∧ ((s.rep.router.sinks p).alive = true →
        (s.rep.router.sinks p).queue.unfinished = pushed) ∨
      s.rep.router.currentOut = none ∧
        (s.writable = false ∨ ¬ (s.rep.router.sinks p).Writable) ∧
        ((s.rep.router.sinks p).alive = true →
          (s.rep.router.sinks p).queue.unfinished = [])) : Out s.observe p pushed := by
  have hwritable := observe_writable s hrequest
  refine ⟨?_, ?_, ?_⟩
  · rw [observe_rep]
    exact others
  · rw [observe_rep]
    rcases own with hown | ⟨hnone, hnot, hclear⟩
    · exact .inl hown
    refine .inr ⟨hnone, ?_, hclear⟩
    rw [hwritable]
    rcases hnot with hfalse | hnot
    · simp [hfalse]
    · simp [hnot]
  · rw [hwritable, observe_rep]
    intro hboth
    simp only [Bool.and_eq_true, decide_eq_true_eq] at hboth
    exact hboth.2

end

theorem Recorded.observe (h : Recorded s stage) : Recorded s.observe stage := by
  rw [observe_eq]
  exact { h with }

/-- The socket after something has happened to its pipes. -/
def System.moved (s : System Pipe) (r : Router Pipe) (known : List Pipe) : System Pipe :=
  { s with known := known, rep := { s.rep with router := r } }

section Environment
variable {r : Router Pipe} {known : List Pipe} {new : Pipe → Prop}

section
omit [DecidableEq Pipe]
variable (known)

theorem Clear.env (h : Clear s) (henv : Env s.rep.router r new) : Clear (s.moved r known) := by
  intro q halive
  change (r.sinks q).queue.unfinished = []
  by_cases hq : new q
  · rw [henv.empty q hq]
  · have hkept := henv.kept q hq
    rw [hkept.unfinished halive]
    exact h q (hkept.alive halive)

theorem Free.env (h : Free s) (henv : Env s.rep.router r new) : Free (s.moved r known) := by
  refine { h with moreOut := ?_, currentOut := ?_, clear := h.clear.env known henv }
  · exact (congrArg Talk.moreOut henv.same).trans h.moreOut
  · rcases henv.out with hsame | ⟨p, hp, -⟩
    · exact hsame.trans h.currentOut
    · cases h.currentOut.symm.trans hp

theorem First.env (h : First s p m) (henv : Env s.rep.router r new) : First (s.moved r known) p m :=
  ⟨(congrArg Talk.prefetched henv.same).trans h.prefetched,
    (congrArg Talk.prefetchedMsg henv.same).trans h.prefetchedMsg,
    (congrArg Talk.currentIn henv.same).trans h.currentIn, h.part⟩

theorem Busy.env (h : Busy s p frames begins sending moreIn) (henv : Env s.rep.router r new) :
    Busy (s.moved r known) p frames begins sending moreIn :=
  { h with prefetched := (congrArg Talk.prefetched henv.same).trans h.prefetched, moreIn :=
    (congrArg Talk.moreIn henv.same).trans h.moreIn, moreOut := (congrArg Talk.moreOut
    henv.same).trans h.moreOut }

theorem Out.env (h : Out s p pushed) (hrequest : s.request = some (p, frames))
    (henv : Env s.rep.router r new) (hp : ¬ new p) : Out (s.moved r known).observe p pushed := by
  have hkept := henv.kept p hp
  refine out_observe (s := s.moved r known) hrequest ?_ ?_
  · intro q hne halive
    change (r.sinks q).queue.unfinished = []
    by_cases hq : new q
    · rw [henv.empty q hq]
    · have hkept := henv.kept q hq
      rw [hkept.unfinished halive]
      exact h.others q hne (hkept.alive halive)
  · rcases h.own with ⟨hout, hown⟩ | ⟨hnone, hfalse, hclear⟩
    · rcases henv.out with hsame | ⟨p', hp', hgone, hdead⟩
      · refine .inl ⟨hsame.trans hout, fun halive => ?_⟩
        exact (hkept.unfinished halive).trans (hown (hkept.alive halive))
      · cases hout.symm.trans hp'
        refine .inr ⟨hgone, .inr fun hwritable => ?_, fun halive => ?_⟩
        · cases hdead.symm.trans hwritable.2.1
        · cases hdead.symm.trans halive
    · refine .inr ⟨?_, .inl hfalse, fun halive => ?_⟩
      · rcases henv.out with hsame | ⟨p', hp', -⟩
        · exact hsame.trans hnone
        · cases hnone.symm.trans hp'
      · exact (hkept.unfinished halive).trans (hclear (hkept.alive halive))

end

theorem Recorded.env (h : Recorded s stage) (henv : Env s.rep.router r new)
    (hnew : ∀ q, new q → q ∉ s.known) (hknown : ∀ q ∈ s.known, q ∈ known) :
    Recorded (s.moved r known) stage := by
  refine ⟨?_, h.complete, h.requests, h.wellFormed, fun e he => hknown _ (h.peers e he), ?_, ?_⟩
  · intro p
    change content (r.queues.got p) = _
    rw [henv.got]
    exact h.pending p
  · intro q
    change (r.sinks q).queue.finished = []
    by_cases hq : new q
    · rw [henv.empty q hq]
    · rw [(henv.kept q hq).finished]
      exact h.finished q
  · intro p
    change ∃ delivered, (r.sinks p).queue.flushed = _ ∧ _
    by_cases hp : new p
    · have hnone : s.exchangesOf p = [] := by
        refine filter_eq_nil_iff.mpr ?_
        intro e he heq
        exact hnew p hp (of_decide_eq_true heq ▸ h.peers e he)
      refine ⟨[], by rw [henv.empty p hp]; rfl, ?_, ?_⟩
      · exact nil_sublist _
      · change ((s.exchangesOf p).filter _).Sublist []
        rw [hnone]
        exact nil_sublist _
    · rw [(henv.kept p hp).flushed]
      exact h.flushed p

/-- A stage lasts while things happen to the pipes. -/
theorem At.env (h : At s stage) (hcall : s.rep.call = none) (hlink : Link r stage.mid known)
    (henv : Env s.rep.router r new) (hnew : ∀ q, new q → q ∉ s.known)
    (hknown : ∀ q ∈ s.known, q ∈ known) : At (s.moved r known).observe stage := by
  have hrecorded := h.recorded.env henv hnew hknown
  have hout {p : Pipe} {frames pushed : List Msg} (hout : Out s p pushed)
      (hrequest : s.request = some (p, frames)) :
      Out { s.moved r known with writable := (s.moved r known).observe.writable } p pushed := by
    rw [← observe_eq]
    exact hout.env known hrequest henv fun hp => hnew p hp (h.peer p frames hrequest)
  rw [observe_eq]
  refine ⟨hlink, ?_, { hrecorded with }, fun p frames hrequest => hknown p (h.peer _ _ hrequest)⟩
  cases h.shows with
  | idle free prefetched moreIn =>
    refine .idle { free.env known henv with } ?_ ?_
    · exact (congrArg Talk.prefetched henv.same).trans prefetched
    · exact (congrArg Talk.moreIn henv.same).trans moreIn
  | @held p m free first routingIdSent moreIn more id own =>
    have hid : r.prefetchedId = s.rep.router.prefetchedId :=
      congrArg Talk.prefetchedId henv.same
    refine .held { free.env known henv with } { first.env known henv with } ?_ ?_ ?_ ?_ ?_
    · exact (congrArg Talk.routingIdSent henv.same).trans routingIdSent
    · exact (congrArg Talk.moreIn henv.same).trans moreIn
    · exact (congrArg (·.flags.more) hid).trans more
    · exact fun hnil => id ((congrArg Msg.data hid).symm.trans hnil)
    · intro hmore
      have hin : p ∈ s.rep.router.queues.attached :=
        h.link.stream.mem (by simp [Stage.mid, hmore])
      exact (congrArg Msg.data hid).trans ((own hmore).trans (henv.ids p hin).symm)
  | addressed _ _ call | envelope _ call => cases hcall.symm.trans call
  | body busy reply out more bottom =>
    exact .body { busy.env known henv with } reply (hout out busy.request) more bottom
  | reply busy call out complete wellFormed =>
    exact .reply { busy.env known henv with } call (hout out busy.request) complete wellFormed

end Environment

section Histories
variable {stage' : Stage Pipe}

/-- Nothing is flushed, and no exchange ends. -/
structure Quiet (s t : System Pipe) : Prop where
  known : t.known = s.known
  exchanges : t.exchanges = s.exchanges
  flushed : ∀ q, (t.rep.router.sinks q).queue.flushed = (s.rep.router.sinks q).queue.flushed
  finished : ∀ q, (t.rep.router.sinks q).queue.finished = (s.rep.router.sinks q).queue.finished

section
variable (h : Recorded s stage) (hquiet : Quiet s t)
include h hquiet

theorem Recorded.quiet
    (pending : ∀ p, content (t.rep.router.queues.got p) = (t.taken p).flatten ++ stage'.pending p)
    (complete : ∀ p, ∀ request ∈ t.taken p, Complete request)
    (requests : ∀ p, ((s.exchangesOf p).map (·.request) ++ stage'.replying p).Sublist (t.taken p)) :
    Recorded t stage' := by
  have hexchanges : t.exchangesOf = s.exchangesOf := by
    funext p
    rw [System.exchangesOf, hquiet.exchanges]
    rfl
  refine ⟨pending, complete, ?_, ?_, ?_, ?_, ?_⟩
  · rw [hexchanges]
    exact requests
  · rw [hquiet.exchanges]
    exact h.wellFormed
  · rw [hquiet.exchanges, hquiet.known]
    exact h.peers
  · intro q
    rw [hquiet.finished]
    exact h.finished q
  · intro p
    rw [hquiet.flushed, hexchanges]
    exact h.flushed p

theorem Recorded.part (new : Pipe → List Msg) (htaken : t.taken = s.taken)
    (hgot : ∀ q, content (t.rep.router.queues.got q) = content (s.rep.router.queues.got q) ++ new q)
    (hpending : ∀ q, stage'.pending q = stage.pending q ++ new q)
    (hreplying : ∀ q, stage'.replying q = stage.replying q) : Recorded t stage' := by
  refine h.quiet hquiet ?_ ?_ ?_
  · intro q
    rw [hgot, htaken, hpending, h.pending, append_assoc]
  · rw [htaken]
    exact h.complete
  · intro q
    rw [htaken, hreplying]
    exact h.requests q

theorem Recorded.took (new : Pipe → List Msg)
    (htaken : t.taken = Function.update s.taken p (s.taken p ++ [frames]))
    (hgot : ∀ q, content (t.rep.router.queues.got q) = content (s.rep.router.queues.got q) ++ new q)
    (hpending : ∀ q, stage.pending q ++ new q = if q = p then frames else [])
    (hdone : ∀ q, stage'.pending q = []) (hcomplete : Complete frames)
    (hfree : ∀ q, stage.replying q = [])
    (hreplying : ∀ q, (stage'.replying q).Sublist (if q = p then [frames] else [])) :
    Recorded t stage' := by
  have htaken' (q : Pipe) : t.taken q = s.taken q ++ if q = p then [frames] else [] := by
    rw [htaken]
    rcases eq_or_ne q p with rfl | hq
    · simp
    · simp [hq]
  refine h.quiet hquiet ?_ ?_ ?_
  · intro q
    rw [hgot, hdone, htaken', h.pending, append_assoc, hpending]
    by_cases hq : q = p <;> simp [hq]
  · intro q request hrequest
    rw [htaken'] at hrequest
    rcases mem_append.mp hrequest with hold | hnew
    · exact h.complete q request hold
    by_cases hq : q = p
    · rw [if_pos hq] at hnew
      exact mem_singleton.mp hnew ▸ hcomplete
    · rw [if_neg hq] at hnew
      cases hnew
  · intro q
    have hold := h.requests q
    rw [hfree, append_nil] at hold
    rw [htaken']
    exact hold.append (hreplying q)

end

end Histories

section Envelopes

/-- Nothing after the delimiter belongs to the envelope. -/
theorem envelope_append_of_bottom (h : ∃ m ∈ frames, m.data = []) (later : List Msg) :
    Reps.envelope (frames ++ later) = Reps.envelope frames := by
  induction frames with
  | nil =>
    obtain ⟨m, hm, -⟩ := h
    cases hm
  | cons first rest ih =>
    by_cases hfirst : first.data = []
    · simp [Reps.envelope, hfirst]
    · obtain ⟨m, hm, hdata⟩ := h
      rcases mem_cons.mp hm with rfl | hm
      · exact absurd hdata hfirst
      · simp [Reps.envelope, hfirst, ih ⟨m, hm, hdata⟩]

theorem envelope_of_labels (h : ∀ m ∈ frames, m.data ≠ []) (hm : m.data = []) :
    Reps.envelope (frames ++ [m]) = frames ++ [m] := by
  induction frames with
  | nil => simp [Reps.envelope, hm]
  | cons first rest ih =>
    have hfirst : first.data ≠ [] := h first mem_cons_self
    simp [Reps.envelope, hfirst, ih fun m hm => h m (mem_cons_of_mem first hm)]

theorem complete_append (h : ∀ m ∈ frames, m.flags.more = true) (hm : m.flags.more = false) :
    Complete (frames ++ [m]) :=
  ⟨frames, m, rfl, h, hm⟩

end Envelopes

section Turns
variable {r r' : Router Pipe} {m : Msg}

theorem Out.push (h : Out s p pushed) (hpushed : Pushed r m t.rep.router)
    (hsinks : r.sinks = s.rep.router.sinks) (hout : r.currentOut = s.rep.router.currentOut)
    (hmore : m.flags.more = true) (hrequest : t.request = some (p, frames))
    (hwritable : t.writable = s.writable) : Out t.observe p (pushed ++ [m]) := by
  refine out_observe hrequest ?_ ?_
  · intro q hne halive
    rw [hpushed.alive, hsinks] at halive
    have hother : r.currentOut ≠ some q := by
      rw [hout]
      intro hq
      rcases h.own with ⟨hp, -⟩ | ⟨hnone, -⟩
      · exact hne (Option.some.inj (hq.symm.trans hp))
      · cases hnone.symm.trans hq
    rw [hpushed.others q hother, hsinks]
    exact h.others q hne halive
  · rcases h.own with ⟨hp, hown⟩ | ⟨hnone, hfalse, hclear⟩
    · rw [← hsinks] at hown
      cases hpushed.own p (hout.trans hp) with
      | more _ _ hout' hqueue =>
        refine .inl ⟨hout', fun halive => ?_⟩
        rw [hpushed.alive] at halive
        rw [hqueue, ← hown halive]
        rfl
      | last _ hlast => cases hmore.symm.trans hlast
      | refused _ hafter hout' hqueue =>
        refine .inr ⟨hout', .inr hafter, fun _ => ?_⟩
        rw [hqueue]
    · refine .inr ⟨hpushed.none (hout.trans hnone), .inl (hwritable.trans hfalse), fun halive => ?_⟩
      have hother : r.currentOut ≠ some p := by
        rw [hout, hnone]
        exact nofun
      rw [hpushed.alive, hsinks] at halive
      rw [hpushed.others p hother, hsinks]
      exact hclear halive

/-- Nothing is flushed by a part that is to be continued. -/
theorem Pushed.quiet (h : Pushed r m r') (hmore : m.flags.more = true) (q : Pipe) :
    (r'.sinks q).queue.flushed = (r.sinks q).queue.flushed ∧
      (r'.sinks q).queue.finished = (r.sinks q).queue.finished := by
  by_cases hq : r.currentOut = some q
  · cases h.own q hq with
    | more _ _ _ hqueue => exact ⟨by rw [hqueue]; rfl, by rw [hqueue]; rfl⟩
    | last _ hlast => cases hmore.symm.trans hlast
    | refused _ _ _ hqueue => exact ⟨by rw [hqueue], by rw [hqueue]⟩
  · rw [h.others q hq]
    exact ⟨rfl, rfl⟩

end Turns

end Stages

end Uzmq.Reps
