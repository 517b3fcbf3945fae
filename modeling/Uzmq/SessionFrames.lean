import Uzmq.Sessions

/-!
# Sessions and the flow of messages to the socket

Whether a session can push messages depends on `out_active` at its end of the pipe. It is set and
reset by writing and by `activate_write`; all else that a session does leaves it alone, or ends
writing for good.
-/

namespace Uzmq.Pipes

open Uzmq.Handshake

variable {s t : System} {i : Side}

theorem step_other {input : Input} (hinput : (∃ c, input = .call i c) ∨ input = .deliver i)
    (h : step s input = some t) : t.pipe i.peer = s.pipe i.peer := by
  have hcommit : ∀ l, (s.commit i l).pipe i.peer = s.pipe i.peer :=
    fun l => (committed_call s i l).peer
  have htake : ∀ l, ((s.take i).commit i l).pipe i.peer = s.pipe i.peer :=
    fun l => (committed_deliver s i l).peer
  unfold step at h
  split at h
  · cases h
  rcases hinput with ⟨c, rfl⟩ | rfl
  · dsimp only at h
    split at h
    · cases h
    · cases h
      exact hcommit _
  · dsimp only at h
    split at h
    · cases h
    split at h
    · cases h
      rfl
    · cases h
      exact htake _

theorem step_deliver {c : Command} {rest : List Command} (hbox : s.mailbox i = c :: rest)
    (h : step s (.deliver i) = some t) :
    (s.pipe i).deleted = true ∧ t.pipe i = s.pipe i ∨
      (s.pipe i).deleted = false ∧ t.pipe i = (process (s.view i) c).pipe := by
  unfold step at h
  split at h
  · cases h
  simp only [hbox] at h
  split at h
  · rename_i hgone
    cases h
    exact .inl ⟨hgone, rfl⟩
  · rename_i halive
    cases h
    exact .inr ⟨by simpa using halive, (committed_deliver s i _).pipe⟩

end Uzmq.Pipes

namespace Uzmq.Sessions

open Uzmq.Message Uzmq.Handshake Uzmq.Pipes

variable {c : Command} {l : Local} {k : Nat} {f : Local → Local} {reason : Reason} {p : System}
  {wake : Bool}

theorem eq_of_callback {p : Pipe} {call : Callback} (h : callback p c = some call) :
    match call with
    | .readActivated => c = .activateRead
    | .writeActivated => (∃ msgsRead, c = .activateWrite msgsRead) ∧ p.outActive = false ∧
        p.state = .active
    | .hiccuped => (∃ pipe, c = .hiccup pipe) ∧ p.state = .active
    | .pipeTerminated => c = .pipeTermAck := by
  cases c with
  | activateRead =>
    obtain ⟨-, ⟨⟩⟩ := Option.ite_none_right_eq_some.mp h
    rfl
  | activateWrite msgsRead =>
    obtain ⟨hwake, ⟨⟩⟩ := Option.ite_none_right_eq_some.mp h
    exact ⟨⟨msgsRead, rfl⟩, by simpa using hwake⟩
  | hiccup pipe =>
    obtain ⟨hactive, ⟨⟩⟩ := Option.ite_none_right_eq_some.mp h
    exact ⟨⟨pipe, rfl⟩, by simpa using hactive⟩
  | pipeTerm => cases h
  | pipeTermAck =>
    cases h
    rfl
  | pipeHwm inhwm outhwm => cases h

theorem process_woken (h : callback l.pipe c = some .writeActivated) :
    (process l c).pipe.outActive = true := by
  obtain ⟨⟨msgsRead, rfl⟩, hout, hstate⟩ := eq_of_callback h
  simp [process, Local.processActivateWrite, Local.modify, hout, hstate]

/-- A command that does not wake up the writer leaves writing alone. -/
theorem process_sameOut (hwrite : callback l.pipe c ≠ some .writeActivated)
    (hhiccup : callback l.pipe c ≠ some .hiccuped) : SameOut l.pipe (process l c).pipe := by
  cases c with
  | activateRead => exact sameOut_processActivateRead l
  | activateWrite msgsRead =>
    by_cases hwake : (!l.pipe.outActive && l.pipe.state == .active) = true
    · exact absurd (if_pos hwake) hwrite
    · have hcounted : process l (.activateWrite msgsRead) =
          l.modify fun p => { p with peersMsgsRead := msgsRead } := if_neg hwake
      rw [hcounted]
      exact SameOut.refl _
  | hiccup pipe =>
    by_cases hstate : l.pipe.state = .active
    · exact absurd (by simp [callback, hstate]) hhiccup
    apply SameOut.of_closed
    simp only [process, Local.processHiccup]
    split
    · exact hstate
    · split <;> exact hstate
  | pipeTerm => exact sameOut_processPipeTerm l
  | pipeTermAck => exact sameOut_processPipeTermAck l
  | pipeHwm inhwm outhwm => exact SameOut.refl _

/-- The end that is told about a hiccup writes to a new queue. -/
theorem process_hiccuped (h : callback l.pipe c = some .hiccuped)
    (hout : l.pipe.state = .active → l.pipe.outActive = true) :
    (process l c).pipe.outActive = true := by
  obtain ⟨⟨pipe, rfl⟩, hstate⟩ := eq_of_callback h
  simp only [process, Local.processHiccup]
  split
  · exact hout hstate
  · split
    · exact hout hstate
    · rfl

namespace Session

variable {Engine : Type} {s t u : Session Engine}

/-- The session gives its pipe up or uses it for other things than pushing messages. -/
structure Eases (s t : Session Engine) : Prop where
  options : t.options = s.options
  active : t.active = s.active
  accepted : t.accepted = s.accepted
  failed : t.failed = false → s.failed = false
  pipe : ∀ k, t.pipe = some k → s.pipe = some k ∧ SameOut (s.fore k) (t.fore k) ∧
    ((t.pipes k).failed = false → (s.pipes k).failed = false)

theorem Eases.refl (s : Session Engine) : Eases s s :=
  ⟨rfl, rfl, rfl, id, fun _ hk => ⟨hk, SameOut.refl _, id⟩⟩

theorem Eases.trans (h : Eases s t) (h' : Eases t u) : Eases s u := by
  refine ⟨h'.options.trans h.options, h'.active.trans h.active, h'.accepted.trans h.accepted,
    fun hfailed => h.failed (h'.failed hfailed), ?_⟩
  intro k hk
  obtain ⟨hpipe', hout', hfailed'⟩ := h'.pipe k hk
  obtain ⟨hpipe, hout, hfailed⟩ := h.pipe k hpipe'
  exact ⟨hpipe, hout.trans hout', fun hu => hfailed (hfailed' hu)⟩

theorem Eases.open (h : Eases s t) (hs : s.Open) : t.Open := by
  intro k hk hstate
  obtain ⟨hpipe, hout, -⟩ := h.pipe k hk
  obtain ⟨hactive, hsame⟩ := hout hstate
  rw [hsame]
  exact hs k hpipe hactive

theorem Eases.shut (h : Eases s t) (hs : s.Shut) : t.Shut := by
  intro hfailed k hk hpipeFailed hstate
  obtain ⟨hpipe, hout, hpipe'⟩ := h.pipe k hk
  obtain ⟨hactive, hsame⟩ := hout hstate
  rw [hsame]
  exact hs (h.failed hfailed) k hpipe (hpipe' hpipeFailed) hactive

/-- The engine stays as well. -/
structure Keeps (s t : Session Engine) : Prop extends Eases s t where
  engine : t.engine = s.engine
  connecting : t.connecting = s.connecting

theorem Keeps.refl (s : Session Engine) : Keeps s s := ⟨Eases.refl s, rfl, rfl⟩

theorem Keeps.trans (h : Keeps s t) (h' : Keeps t u) : Keeps s u :=
  { h.toEases.trans h'.toEases with
    engine := h'.engine.trans h.engine
    connecting := h'.connecting.trans h.connecting }

theorem fore_withPipe (k : Nat) (p : System) : (s.withPipe k p).fore k = p.pipe .first :=
  congrArg (fun p : System => p.pipe .first) (Function.update_self ..)

theorem fore_withPipe_of_ne {j : Nat} (p : System) (h : j ≠ k) :
    (s.withPipe k p).fore j = s.fore j :=
  congrArg (fun p : System => p.pipe .first) (Function.update_of_ne h ..)

theorem keeps_withPipe (hlive : p.failed = false → (s.pipes k).failed = false)
    (hout : s.pipe = some k → SameOut (s.fore k) (p.pipe .first)) : Keeps s (s.withPipe k p) := by
  refine ⟨⟨rfl, rfl, rfl, id, ?_⟩, rfl, rfl⟩
  intro j hj
  rcases eq_or_ne j k with rfl | hjk
  · rw [fore_withPipe, show (s.withPipe j p).pipes j = p from Function.update_self ..]
    exact ⟨hj, hout hj, hlive⟩
  · rw [fore_withPipe_of_ne p hjk,
      show (s.withPipe k p).pipes j = s.pipes j from Function.update_of_ne hjk ..]
    exact ⟨hj, SameOut.refl _, id⟩

theorem pipes_call (k : Nat) (f : Local → Local) :
    (s.call k f).pipes k = (s.pipes k).commit .first (f ((s.pipes k).view .first)) :=
  Function.update_self ..

theorem fore_call (k : Nat) (f : Local → Local) :
    (s.call k f).fore k = (f ((s.pipes k).view .first)).pipe := by
  unfold fore
  rw [pipes_call]
  rfl

theorem failed_call (k : Nat) (f : Local → Local) :
    ((s.call k f).pipes k).failed =
      ((s.pipes k).failed || (f ((s.pipes k).view .first)).failed) := by
  rw [pipes_call]
  rfl

theorem keeps_call (hf : ∀ l, SameOut l.pipe (f l).pipe) : Keeps s (s.call k f) :=
  keeps_withPipe (fun hfailed => (Bool.or_eq_false_iff.mp hfailed).1) fun _ => hf _

theorem keeps_callPipe (hf : ∀ l, SameOut l.pipe (f l).pipe) : Keeps s (s.callPipe f) := by
  unfold callPipe
  split
  · exact Keeps.refl s
  · exact keeps_call hf

theorem keeps_checkRead : Keeps s s.checkRead := keeps_callPipe sameOut_checkRead

theorem keeps_flush : Keeps s s.flush := by
  apply keeps_callPipe
  intro l
  rw [flush_pipe]
  exact SameOut.refl _

theorem keeps_rollback : Keeps s (s.callPipe Local.rollback) := by
  apply keeps_callPipe
  intro l
  rw [rollback_pipe]
  exact SameOut.refl _

theorem keeps_terminate (delay : Bool) : Keeps s (s.call k fun l => l.terminate delay) :=
  keeps_call fun l => SameOut.of_closed (terminate_state l delay).1

theorem keeps_pullMsg : Keeps s s.pullMsg.1 := by
  unfold pullMsg
  split
  · exact Keeps.refl s
  rename_i k _
  have hcall : Keeps s (s.call k fun l => l.read.1) := keeps_call sameOut_read
  split
  · exact hcall
  · exact { hcall with }

theorem keeps_fail : Keeps s s.fail :=
  { Eases.refl s with failed := nofun, engine := rfl, connecting := rfl }

theorem keeps_dropHalfRead (fuel : Nat) : Keeps s (dropHalfRead fuel s) := by
  induction fuel generalizing s with
  | zero =>
    unfold dropHalfRead
    split
    · exact keeps_fail
    · exact Keeps.refl s
  | succ fuel ih =>
    unfold dropHalfRead
    split
    · have hpull : Keeps s s.pullMsg.1 := keeps_pullMsg
      generalize s.pullMsg = r at hpull ⊢
      obtain ⟨t, msg⟩ := r
      cases msg with
      | none => exact hpull.trans keeps_fail
      | some msg => exact hpull.trans ih
    · exact Keeps.refl s

theorem keeps_cleanPipes : Keeps s s.cleanPipes :=
  (keeps_rollback.trans keeps_flush).trans (keeps_dropHalfRead _)

theorem keeps_giveUp : Keeps s s.giveUp := by
  unfold giveUp
  split
  · exact keeps_callPipe fun l => SameOut.of_closed (terminate_state l false).1
  · exact Keeps.refl s

theorem keeps_ownProcessTerm : Keeps s s.ownProcessTerm := by
  unfold ownProcessTerm
  split
  · exact keeps_fail
  · exact { Keeps.refl s with }

theorem eases_detachPipe (k : Nat) : Eases s (s.detachPipe k) :=
  ⟨rfl, rfl, rfl, id, nofun⟩

/-- What becomes of a session whose engine has failed. -/
structure Unplugged (s : Session Engine) (reason : Reason) (t : Session Engine) : Prop
    extends Eases s t where
  engine : t.engine = none
  connecting : t.connecting = true → s.connecting = true ∨ s.keepsPipe reason = true ∨ t.pipe = none

theorem Unplugged.keeps (h : Unplugged s reason t) (h' : Keeps t u) : Unplugged s reason u := by
  refine ⟨h.toEases.trans h'.toEases, h'.engine.trans h.engine, ?_⟩
  intro hconnecting
  rw [h'.connecting] at hconnecting
  rcases h.connecting hconnecting with hc | hkeeps | hnone
  · exact .inl hc
  · exact .inr (.inl hkeeps)
  right
  right
  cases hu : u.pipe with
  | none => rfl
  | some k =>
    have htk := (h'.pipe k hu).1
    rw [hnone] at htk
    cases htk

theorem unplugged_reconnect (hengine : s.engine = none) (hactive : s.active = true)
    (hreason : reason ≠ .protocolError) : Unplugged s reason s.reconnect := by
  have hhiccup : ∀ t : Session Engine,
      Keeps t (if t.options.subscriber then t.callPipe Local.hiccup else t) := by
    intro t
    split
    · exact keeps_callPipe sameOut_hiccup
    · exact Keeps.refl t
  have hconnect : ∀ t : Session Engine, Eases s t → t.engine = none → t.connecting = s.connecting →
      (t.pipe = none ∨ s.options.immediate = false) →
      Unplugged s reason (if t.options.reconnects then t.startConnecting else t) := by
    intro t ht hnone hsame hpipe
    split
    · rename_i hreconnects
      have htactive : t.active = true := ht.active.trans hactive
      rw [startConnecting, if_pos htactive]
      refine ⟨{ ht with }, hnone, fun _ => ?_⟩
      rcases hpipe with hpipe | himmediate
      · exact .inr (.inr hpipe)
      · right
        left
        rw [ht.options] at hreconnects
        simp [keepsPipe, hactive, hreason, hreconnects, himmediate]
    · refine ⟨ht, hnone, fun hc => .inl ?_⟩
      rwa [hsame] at hc
  refine (hconnect _ ?_ ?_ ?_ ?_).keeps (hhiccup _)
  · split
    · exact Eases.refl s
    · split
      · exact eases_detachPipe _
      · exact Eases.refl s
  · split
    · exact hengine
    · split <;> exact hengine
  · split
    · rfl
    · split <;> rfl
  · split
    · exact .inl ‹_›
    · split
      · exact .inl rfl
      · exact .inr (Bool.eq_false_iff.mpr ‹_›)

theorem unplugged_handleError (reason : Reason) (hengine : s.engine = none) :
    Unplugged s reason (s.handleError reason) := by
  have hself : Unplugged s reason s := ⟨Eases.refl s, hengine, .inl⟩
  have hactive : reason ≠ .protocolError →
      Unplugged s reason (if s.active then s.reconnect else s.giveUp) := by
    intro hreason
    split
    · exact unplugged_reconnect hengine ‹_› hreason
    · exact hself.keeps keeps_giveUp
  cases reason with
  | protocolError => exact hself.keeps keeps_giveUp
  | connectionError | timeoutError => exact hactive nofun

theorem unplugged_engineError (reason : Reason) : Unplugged s reason (s.engineError reason) := by
  have hnone : Eases s s.forgetEngine := { Eases.refl s with }
  have hclean : Keeps s.forgetEngine
      (if s.forgetEngine.pipe.isSome then s.forgetEngine.cleanPipes else s.forgetEngine) := by
    split
    · exact keeps_cleanPipes
    · exact Keeps.refl _
  unfold engineError
  dsimp only
  generalize (if s.forgetEngine.pipe.isSome then s.forgetEngine.cleanPipes
    else s.forgetEngine) = t at hclean ⊢
  have ht : Eases s t := hnone.trans hclean.toEases
  have hconnecting : t.connecting = s.connecting := hclean.connecting
  split
  · exact ⟨ht, hclean.engine, fun hc => .inl (hconnecting ▸ hc)⟩
  have herror := unplugged_handleError (s := t) reason hclean.engine
  refine Unplugged.keeps ⟨ht.trans herror.toEases, herror.engine, ?_⟩ keeps_checkRead
  intro hc
  rcases herror.connecting hc with hc | hkeeps | hpipe
  · exact .inl (hconnecting ▸ hc)
  · right
    left
    rwa [keepsPipe, ht.active, ht.options] at hkeeps
  · exact .inr (.inr hpipe)

/-- The thread of the socket does nothing to the session's ends. -/
theorem keeps_socketStep {input : Pipes.Input}
    (hinput : (∃ c, input = .call .second c) ∨ input = .deliver .second)
    (h : s.socketStep k input = some t) : Keeps s t := by
  unfold socketStep at h
  split at h
  · cases h
  split at h
  · cases h
  rename_i p hstep
  cases h
  refine keeps_withPipe (fun _ => (step_acts hstep).1) fun _ => ?_
  have hsame : p.pipe .first = s.fore k := step_other hinput hstep
  rw [hsame]
  exact SameOut.refl _

/-- What the delivery of a command means for the engine. -/
structure Delivery (s t : Session Engine) (wake : Bool) : Prop where
  options : t.options = s.options
  accepted : t.accepted = s.accepted
  connecting : t.connecting = s.connecting
  engine : t.engine = s.engine ∨ t.engine = none
  failed : t.failed = false → s.failed = false
  open' : s.Open → t.Open
  woken : wake = true → t.engine = s.engine ∧ ¬ s.Open ∧ t.Open
  shut : wake = false → t.engine.isSome = true → s.Shut → t.Shut

theorem Keeps.delivery (h : Keeps s t) : Delivery s t false :=
  { h with engine := .inl h.engine, open' := h.toEases.open, woken := nofun, shut := fun _ _ =>
    h.toEases.shut }

theorem Delivery.keeps (h : Delivery s t false) (h' : Keeps t u) : Delivery s u false := by
  refine ⟨h'.options.trans h.options, h'.accepted.trans h.accepted,
    h'.connecting.trans h.connecting, ?_, fun hfailed => h.failed (h'.failed hfailed),
    fun hs => h'.toEases.open (h.open' hs), nofun, ?_⟩
  · rw [h'.engine]
    exact h.engine
  · intro _ hengine hs
    rw [h'.engine] at hengine
    exact h'.toEases.shut (h.shut rfl hengine hs)

theorem keeps_readActivated (k : Nat) : Keeps s (s.readActivated k) := by
  unfold readActivated
  split
  · split
    · exact Keeps.refl s
    · exact keeps_fail
  · split
    · exact keeps_checkRead
    · exact Keeps.refl s

theorem delivery_pipeTerminated (h : Keeps s t) (k : Nat) :
    Delivery s (t.pipeTerminated k) false := by
  unfold pipeTerminated
  split
  · have hdrop : Keeps t (if t.pipe = some k then { t with pipe := none, hasLingerTimer := false }
        else { t with terminatingPipes := t.terminatingPipes.erase k }) := by
      split
      · exact ⟨⟨rfl, rfl, rfl, id, nofun⟩, rfl, rfl⟩
      · exact { Keeps.refl t with }
    dsimp only
    generalize (if t.pipe = some k then { t with pipe := none, hasLingerTimer := false }
        else { t with terminatingPipes := t.terminatingPipes.erase k }) = u at hdrop ⊢
    have hu : Keeps s u := h.trans hdrop
    have hraw : Delivery s (if !u.terminating && u.options.rawSocket then u.forgetEngine.terminate
        else u) false := by
      split
      · have hforget : Eases u u.forgetEngine := { Eases.refl u with }
        have hs : Eases s u.forgetEngine := hu.toEases.trans hforget
        exact ⟨hs.options, hs.accepted, hu.connecting, .inr rfl, hs.failed, hs.open, nofun,
          fun _ => nofun⟩
      · exact hu.delivery
    generalize (if !u.terminating && u.options.rawSocket then u.forgetEngine.terminate
        else u) = v at hraw ⊢
    split
    · have hpending : Keeps v { v with pending := false } := { Keeps.refl v with }
      exact hraw.keeps (hpending.trans keeps_ownProcessTerm)
    · exact hraw
  · exact (h.trans keeps_fail).delivery

theorem open_withPipe (hout : s.pipe = some k → (p.pipe .first).outActive = true) (hs : s.Open) :
    (s.withPipe k p).Open := by
  intro j hj hstate
  rcases eq_or_ne j k with rfl | hjk
  · rw [fore_withPipe]
    exact hout hj
  · rw [fore_withPipe_of_ne p hjk] at hstate ⊢
    exact hs j hj hstate

theorem delivery_writeActivated (hlive : (s.pipes k).failed = false)
    (hstate : (s.fore k).state = .active) (hbefore : (s.fore k).outActive = false)
    (hout : (p.pipe .first).outActive = true) (h : (s.withPipe k p).writeActivated k = (t, wake)) :
    Delivery s t wake := by
  unfold writeActivated at h
  by_cases hk : s.pipe = some k
  · have hcurrent : ¬ (s.withPipe k p).pipe ≠ some k := fun hne => hne hk
    rw [if_neg hcurrent] at h
    cases h
    have hopen : (s.withPipe k p).Open := by
      intro j hj _
      obtain rfl : k = j := Option.some.inj (hk.symm.trans hj)
      rw [fore_withPipe]
      exact hout
    have hshut : ¬ s.Open := by
      intro hs
      cases hbefore.symm.trans (hs k hk hstate)
    refine ⟨rfl, rfl, rfl, .inl rfl, id, fun _ => hopen, fun _ => ⟨rfl, hshut, hopen⟩, ?_⟩
    intro hnone hsome
    cases hnone.symm.trans hsome
  · have hkeeps : Keeps s (s.withPipe k p) :=
      keeps_withPipe (fun _ => hlive) fun hk' => absurd hk' hk
    have hother : (s.withPipe k p).pipe ≠ some k := hk
    rw [if_pos hother] at h
    cases h
    split
    · exact hkeeps.delivery
    · exact (hkeeps.trans keeps_fail).delivery

theorem delivery_notify (hlive : (s.pipes k).failed = false)
    (hpipe : p.pipe .first = (process ((s.pipes k).view .first) c).pipe)
    (h : (s.withPipe k p).notify k (callback (s.fore k) c) = (t, wake)) : Delivery s t wake := by
  have hkeeps : callback (s.fore k) c ≠ some .writeActivated →
      callback (s.fore k) c ≠ some .hiccuped → Keeps s (s.withPipe k p) := by
    intro hwrite hhiccup
    refine keeps_withPipe (fun _ => hlive) fun _ => ?_
    rw [hpipe]
    exact process_sameOut (l := (s.pipes k).view .first) hwrite hhiccup
  cases hcall : callback (s.fore k) c with
  | none =>
    rw [hcall] at h hkeeps
    cases h
    exact (hkeeps nofun nofun).delivery
  | some call =>
    rw [hcall] at h hkeeps
    cases call with
    | readActivated =>
      cases h
      exact ((hkeeps nofun nofun).trans (keeps_readActivated k)).delivery
    | writeActivated =>
      have hout := process_woken (l := (s.pipes k).view .first) hcall
      rw [← hpipe] at hout
      obtain ⟨-, hbefore, hstate⟩ := eq_of_callback hcall
      exact delivery_writeActivated hlive hstate hbefore hout h
    | hiccuped =>
      cases h
      refine ⟨rfl, rfl, rfl, .inl rfl, nofun, ?_, nofun, fun _ _ _ => nofun⟩
      intro hs
      have hopen : (s.withPipe k p).Open := by
        apply open_withPipe ?_ hs
        intro hk
        rw [hpipe]
        exact process_hiccuped (l := (s.pipes k).view .first) hcall (hs k hk)
      exact hopen
    | pipeTerminated =>
      cases h
      exact delivery_pipeTerminated (hkeeps nofun nofun) k

theorem delivery_deliver (h : s.deliver k = some (t, wake)) : Delivery s t wake := by
  unfold deliver at h
  split at h
  · cases h
  rename_i c rest hbox
  split at h
  · cases h
  rename_i p hstep
  have hlive := (step_acts hstep).1
  have hnotify := Option.some.inj h
  rcases step_deliver hbox hstep with ⟨hgone, hpipe⟩ | ⟨halive, hpipe⟩
  · rw [if_pos hgone] at hnotify
    cases hnotify
    have hkeeps : Keeps s (s.withPipe k p) := by
      refine keeps_withPipe (fun _ => hlive) fun _ => ?_
      rw [hpipe]
      exact SameOut.refl _
    exact hkeeps.delivery
  · rw [if_neg (by simp [halive])] at hnotify
    exact delivery_notify hlive hpipe hnotify

theorem keeps_processTerm (linger : Int) : Keeps s (s.processTerm linger) := by
  unfold processTerm
  split
  · exact keeps_fail
  split
  · exact keeps_ownProcessTerm
  have hpending : Keeps s { s with pending := true } := { Keeps.refl s with }
  dsimp only
  split
  · exact hpending
  split
  · exact hpending.trans keeps_fail
  rename_i k _ _
  have htimer : Keeps s { s with
      pending := true
      hasLingerTimer := s.hasLingerTimer || decide (0 < linger) } :=
    { Keeps.refl s with }
  have hterm := htimer.trans (keeps_terminate (k := k) (decide (linger ≠ 0)))
  split
  · exact hterm.trans keeps_checkRead
  · exact hterm

theorem keeps_timerEvent : Keeps s s.timerEvent := by
  unfold timerEvent
  split
  · exact keeps_fail
  · have htimer : Keeps s { s with hasLingerTimer := false } := { Keeps.refl s with }
    exact htimer.trans (keeps_terminate false)

/-- What `push_msg` answers and what it does. -/
structure Pushed (s t : Session Engine) (msg : Msg) (ok : Bool) : Prop where
  options : t.options = s.options
  active : t.active = s.active
  connecting : t.connecting = s.connecting
  engine : t.engine = s.engine
  taken : ok = true → t.accepted = s.accepted ++ [msg] ∧ (s.Open → t.Open)
  refused : ok = false → t.accepted = s.accepted ∧ t.Shut

theorem pushed_pushMsg (msg : Msg) :
    Pushed s (s.pushMsg msg).1 msg (s.pushMsg msg).2.2 ∧
      ((s.pushMsg msg).2.2 = false → (s.pushMsg msg).2.1 = msg) := by
  unfold pushMsg
  split
  · exact ⟨⟨rfl, rfl, rfl, rfl, fun _ => ⟨rfl, id⟩, nofun⟩, nofun⟩
  cases hk : s.pipe with
  | none =>
    refine ⟨⟨rfl, rfl, rfl, rfl, nofun, fun _ => ⟨rfl, ?_⟩⟩, fun _ => rfl⟩
    intro _ k hk'
    cases hk.symm.trans hk'
  | some k =>
    dsimp only
    split
    · rename_i hwrite
      refine ⟨⟨rfl, rfl, rfl, rfl, fun _ => ⟨rfl, ?_⟩, nofun⟩, nofun⟩
      intro _ j hj _
      obtain rfl : k = j := Option.some.inj (hk.symm.trans hj)
      have hfore := fore_call (s := s) k fun l => (l.write msg).1
      have hout := write_accepted ((s.pipes k).view .first) msg hwrite
      rw [← hfore] at hout
      exact hout
    · rename_i hwrite
      refine ⟨⟨rfl, rfl, rfl, rfl, nofun, fun _ => ⟨rfl, ?_⟩⟩, fun _ => rfl⟩
      intro _ j hj hfailed hstate
      obtain rfl : k = j := Option.some.inj (hk.symm.trans hj)
      rw [failed_call] at hfailed
      rw [fore_call] at hstate ⊢
      exact write_refused _ msg (by simpa using hwrite) (Bool.or_eq_false_iff.mp hfailed).2 hstate

/-- A message that is not accepted for another reason than a full pipe does no harm. -/
theorem open_pushMsg (msg : Msg) (hs : s.Open) (hfull : s.full = false) :
    (s.pushMsg msg).1.Open := by
  unfold pushMsg
  split
  · exact hs
  cases hk : s.pipe with
  | none =>
    intro k hk'
    cases hk.symm.trans hk'
  | some k =>
    have hcall : (s.call k fun l => (l.write msg).1).Open := by
      intro j hj hstate
      obtain rfl : k = j := Option.some.inj (hk.symm.trans hj)
      rw [fore_call] at hstate ⊢
      rw [write_state] at hstate
      apply write_of_room _ msg (hs k hk hstate)
      intro hactive
      have hstate' : (s.fore k).state = .active := hactive
      change (s.fore k).checkHwm = true
      simpa [full, hk, hstate'] using hfull
    dsimp only
    split <;> exact hcall

theorem pushMsg_of_canWrite {msg : Msg} (h : msg.flags.command = false → s.canWrite = true) :
    (s.pushMsg msg).2.2 = true := by
  unfold pushMsg
  split
  · rfl
  rename_i hcommand
  have hwrite := h (by simpa using hcommand)
  unfold canWrite at hwrite
  cases hk : s.pipe with
  | none => simp [hk] at hwrite
  | some k =>
    simp only [hk] at hwrite ⊢
    rw [write_answer _ {} msg] at hwrite
    rw [if_pos hwrite]

theorem makePipe_cases : (s.pipe = none ∧ s.terminating = false ∧ s.makePipe =
      { s with
        pipe := some s.created
        pipes := Function.update s.pipes s.created (newPipe s.options)
        created := s.created + 1 }) ∨
    (s.pipe.isNone && !s.terminating) = false ∧ s.makePipe = s := by
  cases hcond : s.pipe.isNone && !s.terminating with
  | true =>
    have hparts : s.pipe = none ∧ s.terminating = false := by simpa using hcond
    exact .inl ⟨hparts.1, hparts.2, by rw [makePipe, hcond]; rfl⟩
  | false => exact .inr ⟨rfl, by rw [makePipe, hcond]; rfl⟩

theorem newPipe_write (o : Options) : (((newPipe o).view .first).write {}).2 = true := by
  have hhwm : ((newPipe o).view .first).pipe.checkHwm = true := by
    change (Pipe.new _ (if o.conflate then -1 else o.rcvhwm) _).checkHwm = true
    generalize (if o.conflate then (-1 : Int) else o.rcvhwm) = hwm
    simp only [Pipe.checkHwm, Pipe.new]
    by_cases hpos : 0 < hwm <;> simp [hpos]
  have hcheck : ((newPipe o).view .first).checkWrite = ((newPipe o).view .first, true) := by
    unfold Local.checkWrite
    rw [hhwm]
    rfl
  unfold Local.write
  rw [hcheck]
  rfl

theorem open_makePipe (hs : s.Open) : s.makePipe.Open := by
  rcases makePipe_cases (s := s) with ⟨-, -, heq⟩ | ⟨-, heq⟩
  · rw [heq]
    intro k hk _
    obtain rfl : s.created = k := Option.some.inj hk
    unfold fore
    dsimp only
    rw [Function.update_self]
    rfl
  · rw [heq]
    exact hs

theorem canWrite_makePipe (h : (s.canWrite || s.pipe.isNone && !s.terminating) = true) :
    s.makePipe.canWrite = true := by
  rcases makePipe_cases (s := s) with ⟨-, -, heq⟩ | ⟨hcond, heq⟩
  · rw [heq]
    unfold canWrite
    dsimp only
    rw [Function.update_self]
    exact newPipe_write s.options
  · rw [heq]
    rwa [hcond, Bool.or_false] at h

theorem makePipe_frame : s.makePipe.options = s.options ∧ s.makePipe.engine = s.engine := by
  rcases makePipe_cases (s := s) with ⟨-, -, heq⟩ | ⟨-, heq⟩ <;> rw [heq] <;>
    exact ⟨rfl, rfl⟩

end Session

end Uzmq.Sessions
