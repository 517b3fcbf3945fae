import Uzmq.Runs

/-!
# The proxy

The loop of `zmq::proxy` for a frontend and a backend that are different sockets. What the pollers,
the control socket and `forward` return is an input of each iteration. The variables `frontend_in`
to `control_in` keep their values when a socket is not among the events.
-/

namespace Uzmq.Proxies

open Runs Function

inductive Socket where
  | frontend
  | backend
  | control
  deriving DecidableEq, Repr

/-- `ZMQ_POLLIN` and `ZMQ_POLLOUT`. -/
structure Ready where
  pollin : Bool := false
  pollout : Bool := false
  deriving DecidableEq, Repr

abbrev Events := List (Socket × Ready)

inductive Mode where
  | active
  | paused
  | terminated
  deriving DecidableEq, Repr

/-- The pollers that `poller_wait` points to. -/
inductive Poller where
  | input
  | control
  | receiveBlocked
  | sendBlocked
  | bothBlocked
  | frontendOnly
  | backendOnly
  deriving DecidableEq, Repr

inductive Command where
  | pause
  | resume
  | terminate
  | invalid
  deriving DecidableEq, Repr

/-- A call of `forward`, with the events and the mode of its iteration. -/
structure Forward where
  source : Socket
  target : Socket
  events : Events
  mode : Mode
  deriving DecidableEq, Repr

/-- What the calls of one iteration return: whether the blocking wait succeeds, the events of
`poller_all`, the command if it can be received, and whether the two calls of `forward` succeed.
`EAGAIN` counts as success without events. -/
structure Turn where
  waited : Bool := true
  events : Option Events
  command : Option Command := none
  request : Bool := true
  reply : Bool := true

/-- `flags` are `frontend_in`, `frontend_out` and so on; `returned` also stands for a failed
assertion. The iterations so far are `past`, the last one first. -/
structure State where
  mode : Mode := .active
  flags : Socket → Ready := fun _ => {}
  pollerWait : Poller := .input
  returned : Bool := false
  calls : List Forward := []
  past : List Turn := []

def processEvents (flags : Socket → Ready) (events : Events) : Socket → Ready :=
  events.foldl (fun flags e => update flags e.1 e.2) flags

/-- Process a control command if any. -/
def processControl (s : State) (command : Option Command) : State :=
  let done : State := { s with flags := update s.flags .control {} }
  if (s.flags .control).pollin then
    match command with
    | some .pause => { done with mode := .paused, pollerWait := .control }
    | some .resume => { done with mode := .active, pollerWait := .input }
    | some .terminate => { done with mode := .terminated }
    | _ => { s with returned := true }
  else s

/-- One direction of the traffic. -/
def process (s : State) (events : Events) (source target : Socket) (rc : Bool) : State × Bool :=
  if (s.flags source).pollin && (s.flags target).pollout then
    let called : State := { s with calls := s.calls ++ [⟨source, target, events, s.mode⟩] }
    if rc then
      ({ called with
          flags := update
            (update s.flags source { s.flags source with pollin := false })
            target { s.flags target with pollout := false } }, true)
    else ({ called with returned := true }, false)
  else (s, false)

/-- Enable input again where it was disabled. -/
def unblock (wait : Poller) (request reply : Bool) : Poller :=
  let wait :=
    if request then
      match wait with
      | .bothBlocked => .sendBlocked
      | .receiveBlocked | .frontendOnly => .input
      | _ => wait
    else wait
  if reply then
    match wait with
    | .bothBlocked => .receiveBlocked
    | .sendBlocked | .backendOnly => .input
    | _ => wait
  else wait

/-- Nothing could be processed. -/
def block (wait : Poller) (frontend backend : Ready) : Poller :=
  let wait :=
    if frontend.pollin then
      if frontend.pollout then .backendOnly
      else
        match wait with
        | .sendBlocked => .bothBlocked
        | .input => .receiveBlocked
        | _ => wait
    else wait
  if backend.pollin then
    if backend.pollout then .frontendOnly
    else
      match wait with
      | .receiveBlocked => .bothBlocked
      | .input => .sendBlocked
      | _ => wait
  else wait

/-- What is done in an iteration after the command, if the proxy is active. -/
def processActive (s : State) (events : Events) (request reply : Bool) : State :=
  match process s events .frontend .backend request with
  | (s, requested) =>
    if s.returned then s
    else
      match process s events .backend .frontend reply with
      | (s, replied) =>
        { s with
          pollerWait :=
            if requested || replied then unblock s.pollerWait requested replied
            else block s.pollerWait (s.flags .frontend) (s.flags .backend) }

def step (s : State) (turn : Turn) : Option State :=
  if s.returned || s.mode == .terminated then none
  else
    let s := { s with past := turn :: s.past }
    match turn.waited, turn.events with
    | true, some events =>
      let s := processControl { s with flags := processEvents s.flags events } turn.command
      if !s.returned && s.mode == .active then
        some (processActive s events turn.request turn.reply)
      else some s
    | _, _ => some { s with returned := true }

def Initial (s : State) : Prop := s = {}

section Specification

/-- What the poller reports about a socket. -/
def report (events : Events) (socket : Socket) : Option Ready := events.reverse.lookup socket

/-- What an iteration reports about a socket. -/
def Turn.report (turn : Turn) (socket : Socket) : Option Ready :=
  Proxies.report (turn.events.getD []) socket

/-- What the commands received so far have made of the proxy. -/
def modeAfter : List Turn → Mode
  | [] => .active
  | turn :: past =>
    match (turn.report .control).any Ready.pollin, turn.command with
    | true, some .pause => .paused
    | true, some .resume => .active
    | true, some .terminate => .terminated
    | _, _ => modeAfter past

/-- The last report about a socket has a flag, and was not used: either the proxy was not active, or
the other socket was not reported with its flag in the same iteration. -/
def unused (flag flag' : Ready → Bool) (socket other : Socket) : List Turn → Bool
  | [] => false
  | turn :: past =>
    match turn.report socket with
    | none => unused flag flag' socket other past
    | some ready => flag ready &&
        !(modeAfter (turn :: past) == .active && (turn.report other).any flag')

/-- The flag of a socket is reported, or an unused report has it. -/
def offered (flag flag' : Ready → Bool) (socket other : Socket) (turn : Turn) (past : List Turn) :
    Bool :=
  ((turn.report socket).map flag).getD (unused flag flag' socket other past)

/-- If messages can be read from one socket and written to the other, both reports are new. -/
def Current (turn : Turn) (past : List Turn) (source target : Socket) : Prop :=
  offered Ready.pollin Ready.pollout source target turn past = true →
    offered Ready.pollout Ready.pollin target source turn past = true →
      (turn.report source).isSome = true ∧ (turn.report target).isSome = true
  deriving Decidable

/-- When the proxy is active the poller reports both sockets of a direction together. -/
def Fits (s : State) (turn : Turn) : Prop :=
  modeAfter (turn :: s.past) = .active →
    Current turn s.past .frontend .backend ∧ Current turn s.past .backend .frontend
  deriving Decidable

/-- The proxy was active, and the poller has just reported that `forward` does not block. -/
def Prompt (c : Forward) : Prop :=
  c.mode = .active ∧ (report c.events c.source).any Ready.pollin = true ∧
    (report c.events c.target).any Ready.pollout = true

def Prompted (s : State) : Prop := ∀ c ∈ s.calls, Prompt c

instance (s : State) : Decidable (Prompted s) :=
  inferInstanceAs (Decidable (∀ c ∈ s.calls, _ ∧ _))

end Specification

section Proofs

variable {s t : State} {turn : Turn} {past : List Turn} {source target : Socket}

theorem processEvents_eq (flags : Socket → Ready) (events : Events) (socket : Socket) :
    processEvents flags events socket = (report events socket).getD (flags socket) := by
  induction events generalizing flags with
  | nil => rfl
  | cons e later ih =>
    have hprocess : processEvents flags (e :: later) = processEvents (update flags e.1 e.2) later :=
      rfl
    rw [hprocess, ih, report, report, List.reverse_cons, List.lookup_append]
    cases later.reverse.lookup socket with
    | some ready => rfl
    | none =>
      by_cases he : socket = e.1
      · subst he
        simp [List.lookup]
      · simp [List.lookup, beq_false_of_ne he, update_of_ne he]

theorem offered_of_isSome {flag flag' : Ready → Bool} {socket other : Socket}
    (h : (turn.report socket).isSome = true) :
    offered flag flag' socket other turn past = (turn.report socket).any flag := by
  obtain ⟨ready, hready⟩ := Option.isSome_iff_exists.mp h
  simp [offered, hready]

theorem offered_of_any {flag flag' : Ready → Bool} {socket other : Socket}
    (h : (turn.report socket).any flag = true) :
    offered flag flag' socket other turn past = true := by
  rw [offered_of_isSome (Option.isSome_of_any h), h]

theorem unused_cons (flag flag' : Ready → Bool) (socket other : Socket) :
    unused flag flag' socket other (turn :: past) =
      (offered flag flag' socket other turn past &&
        !((turn.report socket).isSome && modeAfter (turn :: past) == .active &&
          (turn.report other).any flag')) := by
  rw [unused, offered]
  cases turn.report socket <;> simp

/-- The flags of one direction are those of the unused reports. -/
def Kept (flags : Socket → Ready) (past : List Turn) (source target : Socket) : Prop :=
  (flags source).pollin = unused Ready.pollin Ready.pollout source target past ∧
    (flags target).pollout = unused Ready.pollout Ready.pollin target source past

/-- The flags of one direction after the events. -/
def Offering (flags : Socket → Ready) (turn : Turn) (past : List Turn) (source target : Socket) :
    Prop :=
  (flags source).pollin = offered Ready.pollin Ready.pollout source target turn past ∧
    (flags target).pollout = offered Ready.pollout Ready.pollin target source turn past

theorem Kept.offering {flags : Socket → Ready} (h : Kept flags past source target) :
    Offering (processEvents flags (turn.events.getD [])) turn past source target := by
  rw [Offering, offered, offered, processEvents_eq, processEvents_eq, ← h.1, ← h.2]
  unfold Turn.report
  exact ⟨by cases report (turn.events.getD []) source <;> rfl,
    by cases report (turn.events.getD []) target <;> rfl⟩

theorem Offering.kept {flags : Socket → Ready} (h : Offering flags turn past source target)
    (hmode : modeAfter (turn :: past) ≠ .active) : Kept flags (turn :: past) source target := by
  rw [Kept, unused_cons, unused_cons, h.1, h.2]
  simp [beq_false_of_ne hmode]

/-- What is offered in one direction is forwarded at once, or kept. -/
theorem process_spec (rc : Bool) (hne : source ≠ target) (hmode : s.mode = .active)
    (hafter : modeAfter (turn :: past) = .active)
    (hoffering : Offering s.flags turn past source target)
    (hcurrent : Current turn past source target) (h : Prompted s) :
    let t := (process s (turn.events.getD []) source target rc).1
    Prompted t ∧ (t.returned = false → Kept t.flags (turn :: past) source target) := by
  obtain ⟨hin, hout⟩ := hoffering
  simp only [Kept, unused_cons, hafter, beq_self_eq_true, Bool.and_true]
  unfold process
  split
  · rename_i hready
    obtain ⟨hin', hout'⟩ := Bool.and_eq_true_iff.mp hready
    rw [hin] at hin'
    rw [hout] at hout'
    obtain ⟨hsource, htarget⟩ := hcurrent hin' hout'
    rw [offered_of_isSome hsource] at hin' ⊢
    rw [offered_of_isSome htarget] at hout' ⊢
    have hcalls : ∀ c ∈ s.calls ++ [⟨source, target, turn.events.getD [], s.mode⟩], Prompt c :=
      List.forall_mem_append.mpr ⟨h, List.forall_mem_singleton.mpr ⟨hmode, hin', hout'⟩⟩
    refine ⟨by cases rc <;> exact hcalls, ?_⟩
    cases rc with
    | false => simp
    | true => simp [hin', hout', hsource, htarget, update_of_ne hne]
  · rename_i hready
    refine ⟨h, fun _ => ?_⟩
    rw [hin, hout, Bool.and_eq_true, not_and] at hready
    rw [hin, hout]
    -- a reported flag would be used with one that is offered
    refine ⟨?_, ?_⟩
    · cases hoffered : offered Ready.pollin Ready.pollout source target turn past with
      | false => rfl
      | true =>
        have hnot := mt offered_of_any (hready hoffered)
        simp [Bool.eq_false_iff.mpr hnot]
    · cases hany : (turn.report source).any Ready.pollin with
      | false => simp
      | true => simp [Bool.eq_false_iff.mpr (hready (offered_of_any hany))]

/-- One direction leaves the flags that the other one depends on. -/
theorem process_frame (hne : source ≠ target) (s : State) (events : Events) (rc : Bool) :
    let t := (process s events source target rc).1
    t.mode = s.mode ∧ t.past = s.past ∧ (t.flags target).pollin = (s.flags target).pollin ∧
      (t.flags source).pollout = (s.flags source).pollout ∧
      ∀ socket, socket ≠ source → socket ≠ target → t.flags socket = s.flags socket := by
  unfold process
  split
  · cases rc with
    | false => simp
    | true =>
      refine ⟨rfl, rfl, by simp, by simp [update_of_ne hne], fun socket hsource htarget => ?_⟩
      simp [update_of_ne htarget, update_of_ne hsource]
  · simp

/-- The variables of the proxy follow from the iterations so far. -/
structure Follows (s : State) : Prop where
  mode : s.mode = modeAfter s.past
  control : (s.flags .control).pollin = false
  request : Kept s.flags s.past .frontend .backend
  reply : Kept s.flags s.past .backend .frontend

/-- The calls were prompt, and before `zmq::proxy` returns the next ones will be. -/
def Prompting (s : State) : Prop := Prompted s ∧ (s.returned = false → Follows s)

theorem processActive_spec {request reply : Bool} (hpast : s.past = turn :: past)
    (hmode : s.mode = .active) (hafter : modeAfter (turn :: past) = .active)
    (hcontrol : (s.flags .control).pollin = false)
    (hrequest : Offering s.flags turn past .frontend .backend)
    (hreply : Offering s.flags turn past .backend .frontend)
    (hcurrent : Current turn past .frontend .backend ∧ Current turn past .backend .frontend)
    (h : Prompted s) :
    Prompting (processActive s (turn.events.getD []) request reply) := by
  obtain ⟨hprompted, hkept⟩ :=
    process_spec request (by decide) hmode hafter hrequest hcurrent.1 h
  obtain ⟨hmode₁, hpast₁, hin, hout, hother₁⟩ :=
    process_frame (by decide : Socket.frontend ≠ .backend) s (turn.events.getD []) request
  unfold processActive
  generalize process s (turn.events.getD []) .frontend .backend request = r₁ at *
  obtain ⟨t₁, requested⟩ := r₁
  dsimp only at *
  split
  · rename_i hreturned
    exact ⟨hprompted, fun hnot => by simp [hreturned] at hnot⟩
  · rename_i hreturned
    rw [Offering, ← hin, ← hout] at hreply
    rw [← hmode₁] at hmode
    obtain ⟨hprompted₂, hkept₂⟩ :=
      process_spec reply (by decide) hmode hafter hreply hcurrent.2 hprompted
    obtain ⟨hmode₂, hpast₂, hin₂, hout₂, hother₂⟩ :=
      process_frame (by decide : Socket.backend ≠ .frontend) t₁ (turn.events.getD []) reply
    generalize process t₁ (turn.events.getD []) .backend .frontend reply = r₂ at *
    obtain ⟨t₂, replied⟩ := r₂
    refine ⟨hprompted₂, fun hnot => ?_⟩
    have hpast' : t₂.past = turn :: past := hpast₂.trans (hpast₁.trans hpast)
    refine ⟨?_, ?_, ?_, ?_⟩
    · show t₂.mode = modeAfter t₂.past
      rw [hpast', hafter, hmode₂, hmode]
    · show (t₂.flags .control).pollin = false
      rw [hother₂ .control (by decide) (by decide), hother₁ .control (by decide) (by decide),
        hcontrol]
    · show Kept t₂.flags t₂.past .frontend .backend
      rw [hpast', Kept, hin₂, hout₂]
      exact hkept (Bool.eq_false_iff.mpr hreturned)
    · show Kept t₂.flags t₂.past .backend .frontend
      rw [hpast']
      exact hkept₂ hnot

theorem processControl_frame (s : State) (command : Option Command) :
    let t := processControl s command
    t.calls = s.calls ∧ t.past = s.past ∧ t.flags .frontend = s.flags .frontend ∧
      t.flags .backend = s.flags .backend := by
  unfold processControl
  split
  · split <;> simp
  · simp

theorem processControl_mode (hmode : s.mode = modeAfter past)
    (hcontrol : (s.flags .control).pollin = (turn.report .control).any Ready.pollin)
    (h : (processControl s turn.command).returned = false) :
    (processControl s turn.command).mode = modeAfter (turn :: past) ∧
      ((processControl s turn.command).flags .control).pollin = false := by
  rw [modeAfter, ← hcontrol]
  unfold processControl at h ⊢
  cases hin : (s.flags .control).pollin with
  | false => simp [hin, hmode]
  | true =>
    rcases hcommand : turn.command with _ | _ | _ | _ | _ <;> simp_all

theorem prompting_step (hs : Prompting s) (hfits : Fits s turn) (hstep : step s turn = some t) :
    Prompting t := by
  obtain ⟨hgoing, hstep⟩ := Option.ite_none_left_eq_some.mp hstep
  rw [Bool.or_eq_true, not_or, Bool.not_eq_true] at hgoing
  obtain ⟨hprompted, hfollows⟩ := hs
  obtain ⟨hmode, hcontrol, hrequest, hreply⟩ := hfollows hgoing.1
  dsimp only at hstep
  split at hstep
  · rename_i events _ hevents
    obtain rfl : turn.events.getD [] = events := by rw [hevents]; rfl
    set u : State := { s with
      past := turn :: s.past
      flags := processEvents s.flags (turn.events.getD []) }
    have hreported : (u.flags .control).pollin = (turn.report .control).any Ready.pollin := by
      show (processEvents s.flags (turn.events.getD []) .control).pollin = _
      rw [processEvents_eq, Turn.report]
      cases report (turn.events.getD []) .control with
      | none => exact hcontrol
      | some ready => rfl
    obtain ⟨hcalls, hpast, hfrontend, hbackend⟩ := processControl_frame u turn.command
    have hcommand := processControl_mode (s := u) hmode hreported
    generalize processControl u turn.command = v at hstep hcalls hpast hfrontend hbackend hcommand
    have hv : Prompted v := by
      rw [Prompted, hcalls]
      exact hprompted
    have hoffering {source target : Socket} (hkept : Kept s.flags s.past source target)
        (hsource : v.flags source = u.flags source) (htarget : v.flags target = u.flags target) :
        Offering v.flags turn s.past source target := by
      rw [Offering, hsource, htarget]
      exact hkept.offering
    have hrequest := hoffering hrequest hfrontend hbackend
    have hreply := hoffering hreply hbackend hfrontend
    split at hstep
    · rename_i hactive
      cases hstep
      rw [Bool.and_eq_true, Bool.not_eq_true', beq_iff_eq] at hactive
      obtain ⟨hafter, hidle⟩ := hcommand hactive.1
      rw [hactive.2] at hafter
      exact processActive_spec hpast hactive.2 hafter.symm hidle hrequest hreply
        (hfits hafter.symm) hv
    · rename_i hactive
      cases hstep
      refine ⟨hv, fun hreturned => ?_⟩
      obtain ⟨hafter, hidle⟩ := hcommand hreturned
      have hpaused : modeAfter (turn :: s.past) ≠ .active := by
        rw [← hafter]
        simpa [hreturned] using hactive
      have hrequest := hrequest.kept hpaused
      have hreply := hreply.kept hpaused
      rw [← show t.past = turn :: s.past from hpast] at hafter hrequest hreply
      exact ⟨hafter, hidle, hrequest, hreply⟩
  · cases hstep
    exact ⟨hprompted, nofun⟩

/-- Whenever `forward` is called, the proxy is not paused, and both sockets have been reported to be
ready in the same iteration. -/
theorem prompt_of_reach {s : State} (h : Reach Initial Fits step s) : Prompted s := by
  have hprompting : Prompting s := by
    refine h.invariant ?_ fun s turn t hs hfits hstep => prompting_step hs hfits hstep
    rintro _ rfl
    exact ⟨nofun, fun _ => ⟨rfl, rfl, ⟨rfl, rfl⟩, ⟨rfl, rfl⟩⟩⟩
  exact hprompting.1

/-- A request is forwarded, the proxy is paused and resumed, and a reply is forwarded. -/
def pausedRun : List Turn :=
  [{ events := some [(.frontend, ⟨true, false⟩), (.backend, ⟨false, true⟩)] },
    { events := some [(.control, ⟨true, false⟩), (.backend, ⟨true, false⟩)]
      command := some .pause },
    { events := some [(.frontend, ⟨false, true⟩), (.backend, ⟨true, false⟩),
        (.control, ⟨true, false⟩)]
      command := some .resume }]

theorem pausedRun_prompted : ∃ s, Reach Initial Fits step s ∧ Prompted s ∧
    s.calls.map Forward.source = [.frontend, .backend] := by
  refine Reach.of_exec_left (s := {}) Fits step pausedRun ?_ rfl fun _ => prompt_of_reach
  decide +kernel

/-- The backend was writable in an earlier iteration, and has not been reported since. -/
theorem forwarded_to_unreported : ∃ s, Reach Initial Always step s ∧
    s.calls = [⟨.frontend, .backend, [(.frontend, ⟨true, false⟩)], .active⟩] ∧ ¬ Prompted s := by
  refine Reach.of_exec (s := {}) Always step
    [{ events := some [(.backend, ⟨false, true⟩)] },
      { events := some [(.frontend, ⟨true, false⟩)] }] ?_ (show Initial {} from rfl)
  decide +kernel

end Proofs

end Uzmq.Proxies
