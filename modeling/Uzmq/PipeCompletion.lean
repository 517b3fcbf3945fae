import Uzmq.PipeTermination

/-!
# Termination of a pipe is completed

An end that was asked to terminate and is to deliver the pending messages first
waits for the delimiter. The delimiter lies in the queue the terminating end writes
to; if the waiting end still reads from that queue and has been told that it is
empty, the command that wakes it up is under way. A hiccup processed after
`terminate` deletes the queue together with the delimiter, so it must not reach a
terminating end whose peer waits or would wait.
-/

namespace Uzmq.PipeCompletion

open List Message Handshake Pipes Runs PipeTermination

/-- The end waits for the delimiter, or will when it is asked to terminate. -/
def Awaits (p : Pipe) : Prop :=
  p.deleted = false ∧ (p.state = .waitingForDelimiter ∨ p.state = .active ∧ p.delay = true)
  deriving Decidable

variable {got : Option Command} {p : Pipe} {q q' : UPipe} {w : Watched} {input : Input}

section Methods
variable {l l' l'' : Local}

/-- What a method does to the delimiters, at the end that awaits one and at the end
that has sent one. -/
structure Passes (l : Local) (got : Option Command) (l' : Local) : Prop where
  awaits : Awaits l'.pipe → Awaits l.pipe
  inbound : Awaits l'.pipe → ∀ p ≤ l.pipe.inpipe, ∀ q, l.inbound p = some q → Delimited q →
    ∃ q', l'.inbound p = some q' ∧ Delimited q'
  asleep : Awaits l'.pipe → l'.pipe.inActive = false → l'.pipe.inpipe = l.pipe.inpipe ∧
    (l.pipe.inActive = false ∧ got ≠ some .activateRead ∨
      ∀ q, l'.inbound l'.pipe.inpipe = some q → ¬ Delimited q)
  outbound : l.pipe.state = .termReqSent1 → l'.pipe.state = .termReqSent1 →
    got.bind newPipe = none → ∀ p q, l.outbound p = some q → Delimited q →
      ∃ q', l'.outbound p = some q' ∧ Delimited q'
  starts : l.pipe.state ≠ .termReqSent1 → l'.pipe.state = .termReqSent1 →
    ∃ p q, l'.pipe.outpipe = some p ∧ l'.outbound p = some q ∧ Delimited q ∧ .activateRead ∈ l'.sent

theorem awaits_of_calm (h : Calm l l') : Awaits l'.pipe ↔ Awaits l.pipe := by
  unfold Awaits
  rw [h.deleted, h.state, h.delay]

/-- The inbound queues are as before, and no termination begins. -/
theorem passes_of_same (hgot : got ≠ some .activateRead)
    (hawaits : Awaits l'.pipe → Awaits l.pipe) (hinbound : l'.inbound = l.inbound)
    (hactive : l'.pipe.inActive = l.pipe.inActive) (hinpipe : l'.pipe.inpipe = l.pipe.inpipe)
    (hstate : l'.pipe.state = .termReqSent1 → l.pipe.state = .termReqSent1)
    (hout : l.pipe.state = .termReqSent1 → got.bind newPipe = none → ∀ p q,
      l.outbound p = some q → Delimited q → ∃ q', l'.outbound p = some q' ∧ Delimited q') :
    Passes l got l' := by
  constructor
  · exact hawaits
  · intro _ p _ q hq hd
    exact ⟨q, by rw [hinbound]; exact hq, hd⟩
  · intro _ hasleep
    exact ⟨hinpipe, .inl ⟨hactive.symm.trans hasleep, hgot⟩⟩
  · exact fun h _ => hout h
  · exact fun hne h => absurd (hstate h) hne

theorem passes_of_calm (h : Calm l l') (hgot : got ≠ some .activateRead) : Passes l got l' :=
  passes_of_same hgot (awaits_of_calm h).mp h.inbound h.inActive h.inpipe h.state.symm.trans
    fun hstate _ => h.outbound hstate

theorem not_awaits (hactive : p.state ≠ .active) (hwaiting : p.state ≠ .waitingForDelimiter) :
    ¬ Awaits p := by
  rintro ⟨-, h | ⟨h, -⟩⟩
  · exact hwaiting h
  · exact hactive h

/-- Afterwards the end does not await a delimiter, and if it has sent one it is still there. -/
theorem passes_of_late (hactive : l'.pipe.state ≠ .active)
    (hwaiting : l'.pipe.state ≠ .waitingForDelimiter)
    (hstate : l'.pipe.state = .termReqSent1 → l.pipe.state = .termReqSent1)
    (hout : l'.pipe.state = .termReqSent1 → l'.outbound = l.outbound) : Passes l got l' := by
  have hnot := not_awaits hactive hwaiting
  refine ⟨fun h => absurd h hnot, fun h => absurd h hnot, fun h => absurd h hnot, ?_, ?_⟩
  · intro _ h _ p q hq hd
    exact ⟨q, by rw [hout h]; exact hq, hd⟩
  · exact fun hne h => absurd (hstate h) hne

theorem calm_fail : Calm l l.fail :=
  ⟨rfl, rfl, rfl, rfl, rfl, rfl, fun _ _ q hq hd => ⟨q, hq, hd⟩⟩

/-- The delimiter can be read, and the reader is told so. -/
theorem writeDelimiter_spec (hl : Live l) {p : Nat} (hp : l.pipe.outpipe = some p) :
    ∃ q, l.writeDelimiter.pipe.outpipe = some p ∧ l.writeDelimiter.outbound p = some q ∧
      Delimited q ∧ .activateRead ∈ l.writeDelimiter.sent := by
  have hback := (minor_rollback hl).quiet
  have hout : l.rollback.pipe.outpipe = some p := hback.outpipe.trans hp
  obtain ⟨q, hq⟩ := Option.isSome_iff_exists.mp ((hback.live hl).outbound p hout)
  have hstate : l.pipe.state ≠ .termAckSent := by
    intro hstate
    have := hl.outpipe.mpr (by simp [PipeTermination.phase, hl.deleted, hstate, Phase.silent])
    rw [hp] at this
    cases this
  have hstate' : l.rollback.pipe.state ≠ .termAckSent := by
    rw [(minor_rollback hl).calm.state]
    exact hstate
  refine ⟨(q.write Local.delimiter false (by simp)).flush, ?_⟩
  have hwrite : l.writeDelimiter =
      ((l.rollback.setOut p (some (q.write Local.delimiter false (by simp)))).setOut p
        (some (q.write Local.delimiter false (by simp)).flush)).send .activateRead := by
    simp [Local.writeDelimiter, hp, hq, Local.flush, Local.setOut, hstate', hout]
  rw [hwrite]
  refine ⟨hout, ?_, UPipe.readable_write_flush q _ _, ?_⟩
  · simp [Local.setOut, Local.send]
  · simp [Local.send]

/-- A read that passes over credentials and returns a message leaves the delimiter. -/
theorem delimited_of_read {rest : UPipe} {before : List Msg} {m : Msg}
    (h : Consumes q (before ++ [m]) rest) (hall : ∀ m ∈ before, m.flags.credential = true)
    (hm : m.isDelimiter = false) (hd : Delimited q) : Delimited rest := by
  unfold Delimited at hd
  rw [h.readable, append_assoc] at hd
  rcases mem_append.mp hd with hd | hd
  · cases hall _ hd
  · rcases mem_cons.mp hd with rfl | hd
    · cases hm
    · exact hd

/-- What the end finds in its queue instead of the old one, as long as it keeps the
delimiter. -/
theorem passes_setIn (hq : l.inbound l.pipe.inpipe = some q) (hkeep : Delimited q → Delimited q')
    (hcalm : Calm (l.setIn (some q')) l') : Passes l none l' := by
  constructor
  · intro h
    exact (awaits_of_calm hcalm).mp h
  · intro _ p _ r hr hd
    rw [hcalm.inbound]
    rcases eq_or_ne p l.pipe.inpipe with rfl | hp
    · rw [hq] at hr
      cases hr
      exact ⟨q', by simp [Local.setIn], hkeep hd⟩
    · exact ⟨r, by simpa [Local.setIn, hp] using hr, hd⟩
  · intro _ hactive
    rw [hcalm.inActive] at hactive
    exact ⟨hcalm.inpipe, .inl ⟨hactive, by simp⟩⟩
  · intro hstate _ _
    exact hcalm.outbound hstate
  · intro hne hstate
    rw [hcalm.state] at hstate
    exact absurd hstate hne

theorem passes_processDelimiter
    (hstate : l.pipe.state = .active ∨ l.pipe.state = .waitingForDelimiter) (l₀ : Local) :
    Passes l₀ none l.processDelimiter := by
  unfold Local.processDelimiter
  rcases hstate with hstate | hstate <;> rw [hstate] <;>
    exact passes_of_late nofun nofun nofun nofun

theorem passes_asleep (hq : l.inbound l.pipe.inpipe = some q) (hempty : ¬ Delimited q)
    (hempty' : ¬ Delimited q') (hinbound : ∀ p, p ≠ l.pipe.inpipe → l'.inbound p = l.inbound p)
    (hq' : l'.inbound l.pipe.inpipe = some q') (hpipe : l'.pipe = { l.pipe with inActive := false })
    (hout : l'.outbound = l.outbound) : Passes l none l' := by
  have hawaits : Awaits l'.pipe ↔ Awaits l.pipe := by
    rw [hpipe]
    exact Iff.rfl
  constructor
  · exact hawaits.mp
  · intro _ p _ r hr hd
    rcases eq_or_ne p l.pipe.inpipe with rfl | hp
    · rw [hq] at hr
      cases hr
      exact absurd hd hempty
    · exact ⟨r, by rw [hinbound p hp]; exact hr, hd⟩
  · intro _ _
    have hinpipe : l'.pipe.inpipe = l.pipe.inpipe := by rw [hpipe]
    refine ⟨hinpipe, .inr ?_⟩
    intro r hr
    rw [hinpipe, hq'] at hr
    cases hr
    exact hempty'
  · intro _ _ _ p r hr hd
    exact ⟨r, by rw [hout]; exact hr, hd⟩
  · intro hne hstate
    rw [hpipe] at hstate
    exact absurd hstate hne

theorem passes_checkRead : Passes l none l.checkRead.1 := by
  have hchecked := checkRead_checked l
  generalize l.checkRead = r at hchecked ⊢
  cases hchecked with
  | refused | ready => exact passes_of_calm (.refl l) (by simp)
  | lost => exact passes_of_calm calm_fail (by simp)
  | @empty q hq hnil =>
    have hempty : ¬ Delimited q := by simp [Delimited, hnil]
    exact passes_asleep hq hempty hempty (fun _ _ => rfl) hq rfl rfl
  | @delimiter _ rest _ hmay =>
    exact passes_processDelimiter (l := l.setIn (some rest)) (mayRead_state hmay) l

theorem passes_read (hl : Live l) : Passes l none l.read.1 := by
  have hfetched := read_fetched l
  generalize l.read = r at hfetched ⊢
  cases hfetched with
  | refused => exact passes_of_calm (.refl l) (by simp)
  | lost => exact passes_of_calm calm_fail (by simp)
  | @empty q rest hq hgone hall =>
    have hempty : ¬ Delimited q := by
      intro hd
      cases hall _ hd
    have hempty' : ¬ Delimited rest := by
      have hnil : rest.readable = [] := self_eq_append_right.mp hgone.readable
      simp [Delimited, hnil]
    refine passes_asleep hq hempty hempty' ?_ ?_ rfl rfl
    · intro p hp
      simp [Local.setIn, Local.modify, hp]
    · simp [Local.setIn, Local.modify]
  | @delimiter _ rest _ _ hmay =>
    exact passes_processDelimiter (l := l.setIn (some rest)) (mayRead_state hmay) l
  | @part _ rest _ m hmay hq hgone hall _ hm =>
    apply passes_setIn hq (delimited_of_read hgone hall hm)
    have hcount : Minor (l.setIn (some rest)) _ := minor_countRead m
    refine (hcount.trans (minor_reportRead ?_)).calm
    rw [hcount.quiet.phase]
    exact silent_of_mayRead ((quiet_setIn hl rest).live hl) hmay

/-- The end asks its peer to terminate and leaves the delimiter for it. -/
theorem passes_request (hl : Live l) (hopen : phase l.pipe = .opened) (l₀ : Local)
    (hl₀ : l₀.pipe.state ≠ .termReqSent1) : Passes l₀ none l.requestTerm.stopOutbound := by
  obtain ⟨p, hp⟩ := Option.ne_none_iff_exists'.mp (hl.outpipe_ne (by rw [hopen]; rfl))
  have hlive : Live (l.requestTerm.modify fun p => { p with outActive := false }) :=
    Quiet.live (quiet_modify rfl rfl rfl rfl) (hl.requestTerm hopen)
  obtain ⟨q, hout, hq, hd, hmem⟩ := writeDelimiter_spec hlive hp
  have hstate : l.requestTerm.stopOutbound.pipe.state = .termReqSent1 := by
    unfold Local.stopOutbound
    rw [writeDelimiter_pipe]
    rfl
  have hnot : ¬ Awaits l.requestTerm.stopOutbound.pipe :=
    not_awaits (by rw [hstate]; nofun) (by rw [hstate]; nofun)
  exact ⟨fun h => absurd h hnot, fun h => absurd h hnot, fun h => absurd h hnot,
    fun h => absurd h hl₀, fun _ _ => ⟨p, q, hout, hq, hd, hmem⟩⟩

theorem passes_terminate (hl : Live l) (delay : Bool) : Passes l none (l.terminate delay) := by
  obtain ⟨m, hm⟩ : ∃ m, m = l.modify fun p => { p with delay := delay } := ⟨_, rfl⟩
  have hquiet : Quiet l m := by
    rw [hm]
    apply quiet_modify <;> rfl
  have hlm := hquiet.live hl
  have hstate : m.pipe.state = l.pipe.state := by
    rw [hm]
    rfl
  -- In the later states only `delay` changes.
  have hlate : m.pipe.state ≠ .active → m.pipe.state ≠ .waitingForDelimiter → Passes l none m :=
    fun hactive hwaiting =>
      passes_of_late hactive hwaiting hstate.symm.trans fun _ => by rw [hm]; rfl
  unfold Local.terminate
  simp only [← hm]
  cases hs : m.pipe.state with
  | active | delimiterReceived =>
    apply passes_request hlm (by simp [phase, hlm.deleted, hs]) l
    rw [← hstate, hs]
    rintro ⟨⟩
  | waitingForDelimiter =>
    have hl₀ : l.pipe.state = .waitingForDelimiter := hstate.symm.trans hs
    dsimp only
    split
    · have hcalm : Calm m m.stopOutbound := (minor_stopOutbound hlm).calm
      subst hm
      refine passes_of_same (by simp) ?_ hcalm.inbound hcalm.inActive hcalm.inpipe
        hcalm.state.symm.trans fun h => by cases hl₀.symm.trans h
      rintro ⟨halive, -⟩
      exact ⟨hcalm.deleted.symm.trans halive, .inl hl₀⟩
    · exact passes_of_late (by rintro ⟨⟩) (by rintro ⟨⟩) (by rintro ⟨⟩) (by rintro ⟨⟩)
  | termAckSent | termReqSent1 | termReqSent2 =>
    exact hlate (by rw [hs]; rintro ⟨⟩) (by rw [hs]; rintro ⟨⟩)

theorem passes_hiccup : Passes l none l.hiccup := by
  unfold Local.hiccup
  split
  · exact passes_of_calm (.refl l) (by simp)
  rename_i hactive
  simp only [ne_eq, not_not] at hactive
  constructor
  · intro h
    exact h
  · intro _ p hp q hq hd
    have hne : p ≠ l.pipe.inpipe + 1 := by omega
    exact ⟨q, by simpa [Local.send, Local.setIn, Local.modify, hne] using hq, hd⟩
  · rintro - ⟨⟩
  · intro h
    rw [hactive] at h
    cases h
  · intro hne h
    exact absurd h hne

theorem passes_setNodelay : Passes l none l.setNodelay := by
  refine passes_of_same nofun ?_ rfl rfl rfl id fun _ _ p q hq hd => ⟨q, hq, hd⟩
  rintro ⟨halive, h | ⟨-, h⟩⟩
  · exact ⟨halive, .inl h⟩
  · cases h

theorem passes_perform (hl : Live l) (c : Call) : Passes l none (perform l c) := by
  have hgot : (none : Option Command) ≠ some .activateRead := by simp
  cases c with
  | checkRead => exact passes_checkRead
  | read => exact passes_read hl
  | checkWrite => exact passes_of_calm minor_checkWrite.calm hgot
  | write msg => exact passes_of_calm (minor_write hl msg).calm hgot
  | rollback => exact passes_of_calm (minor_rollback hl).calm hgot
  | flush => exact passes_of_calm (minor_flush hl).calm hgot
  | terminate delay => exact passes_terminate hl delay
  | hiccup => exact passes_hiccup
  | setNodelay => exact passes_setNodelay
  | setHwms inhwm outhwm =>
    exact passes_of_calm (minor_setHwms inhwm outhwm).calm hgot
  | sendHwmsToPeer inhwm outhwm => exact passes_of_calm (calm_send _) hgot

/-- An end that awaits the delimiter is woken up. -/
theorem passes_processActivateRead : Passes l (some .activateRead) l.processActivateRead := by
  unfold Local.processActivateRead
  split
  · refine ⟨id, fun _ p _ q hq hd => ⟨q, hq, hd⟩, ?_, fun _ _ _ p q hq hd => ⟨q, hq, hd⟩,
      fun hne h => absurd h hne⟩
    rintro - ⟨⟩
  · rename_i hnot
    refine ⟨id, fun _ p _ q hq hd => ⟨q, hq, hd⟩, ?_, fun _ _ _ p q hq hd => ⟨q, hq, hd⟩,
      fun hne h => absurd h hne⟩
    rintro ⟨-, hstate | ⟨hstate, -⟩⟩ hasleep <;> simp [hasleep, hstate] at hnot

theorem passes_processHiccup (pipe : Nat) :
    Passes l (some (.hiccup pipe)) (l.processHiccup pipe) := by
  unfold Local.processHiccup
  cases l.pipe.outpipe with
  | none => exact passes_of_calm calm_fail (by simp)
  | some p =>
    dsimp only
    cases l.outbound p with
    | none => exact passes_of_calm calm_fail (by simp)
    | some q => exact passes_of_same nofun id rfl rfl rfl id nofun

theorem passes_sendPipeTermAck {state : State}
    (hstate : state = .termAckSent ∨ state = .termReqSent2) :
    Passes l got (l.sendPipeTermAck state) := by
  rcases hstate with rfl | rfl <;> exact passes_of_late nofun nofun nofun nofun

theorem passes_processPipeTerm : Passes l (some .pipeTerm) l.processPipeTerm := by
  have hgot : some Command.pipeTerm ≠ some .activateRead := by simp
  unfold Local.processPipeTerm
  cases hstate : l.pipe.state with
  | active =>
    dsimp only
    split
    · rename_i hdelay
      refine passes_of_same hgot ?_ rfl rfl rfl nofun fun h => nomatch hstate.symm.trans h
      rintro ⟨halive, -⟩
      exact ⟨halive, .inr ⟨hstate, hdelay⟩⟩
    · exact passes_sendPipeTermAck (.inl rfl)
  | delimiterReceived => exact passes_sendPipeTermAck (.inl rfl)
  | termReqSent1 => exact passes_sendPipeTermAck (.inr rfl)
  | waitingForDelimiter | termAckSent | termReqSent2 => exact passes_of_calm calm_fail hgot

theorem deallocate_state : l.deallocate.pipe.state = l.pipe.state := by
  unfold Local.deallocate
  split <;> rfl

theorem deallocate_outbound : l.deallocate.outbound = l.outbound := by
  unfold Local.deallocate
  split <;> rfl

/-- An end that gets an acknowledgement was not waiting. -/
theorem passes_processPipeTermAck : Passes l (some .pipeTermAck) l.processPipeTermAck := by
  have hgot : some Command.pipeTermAck ≠ some .activateRead := by simp
  have hdone : ∀ {m : Local}, m.pipe.state = l.pipe.state → m.outbound = l.outbound →
      l.pipe.state ≠ .active → l.pipe.state ≠ .waitingForDelimiter →
      Passes l (some .pipeTermAck) m.deallocate := by
    intro m hstate hout hactive hwaiting
    have heq : m.deallocate.pipe.state = l.pipe.state := deallocate_state.trans hstate
    exact passes_of_late (heq ▸ hactive) (heq ▸ hwaiting) heq.symm.trans
      fun _ => deallocate_outbound.trans hout
  unfold Local.processPipeTermAck
  cases hstate : l.pipe.state with
  | termReqSent1 =>
    refine hdone ?_ rfl ?_ ?_
    · rw [hstate]
      rfl
    · rw [hstate]
      rintro ⟨⟩
    · rw [hstate]
      rintro ⟨⟩
  | termAckSent | termReqSent2 =>
    exact hdone rfl rfl (by rw [hstate]; rintro ⟨⟩) (by rw [hstate]; rintro ⟨⟩)
  | active | delimiterReceived | waitingForDelimiter => exact passes_of_calm calm_fail hgot

theorem passes_process (c : Command) : Passes l (some c) (process l c) := by
  cases c with
  | activateRead => exact passes_processActivateRead
  | activateWrite msgsRead =>
    exact passes_of_calm (minor_processActivateWrite msgsRead).calm (by simp)
  | hiccup pipe => exact passes_processHiccup pipe
  | pipeTerm => exact passes_processPipeTerm
  | pipeTermAck => exact passes_processPipeTermAck
  | pipeHwm inhwm outhwm => exact passes_of_calm (minor_setHwms inhwm outhwm).calm (by simp)

theorem terminate_not_opened (delay : Bool) : phase (l.terminate delay).pipe ≠ .opened := by
  have hstate := terminate_state l delay
  unfold phase
  split
  · rintro ⟨⟩
  · cases hs : (l.terminate delay).pipe.state <;> simp_all

end Methods

section Systems
variable {s t : System} {i : Side} {got : Option Command} {rest : List Command} {l : Local}

/-- A hiccup does not reach an end that has called `terminate` while its peer waits
for the delimiter, or would when it is asked to terminate. -/
def DelimiterSafe (s : System) : Input → Prop
  | .deliver i =>
    match (s.mailbox i).head? with
    | some (.hiccup _) => (s.pipe i).state = .termReqSent1 → ¬ Awaits (s.pipe i.peer)
    | _ => True
  | .call _ _ => True

instance (s : System) : (input : Input) → Decidable (DelimiterSafe s input)
  | .deliver i => by
    unfold DelimiterSafe
    dsimp only
    split <;> infer_instance
  | .call _ _ => isTrue trivial

/-- The delimiter that the peer of end `i` awaits. -/
def Left (s : System) (i : Side) : Prop :=
  (s.pipe i).state = .termReqSent1 → (s.pipe i).deleted = false → Awaits (s.pipe i.peer) →
    ∃ p q, (s.pipe i).outpipe = some p ∧ s.queue i.peer p = some q ∧ Delimited q ∧
      (p = (s.pipe i.peer).inpipe → (s.pipe i.peer).inActive = false →
        .activateRead ∈ s.mailbox i.peer)

theorem left_of_writer (hleft : Left s i) (hc : Committed s i rest l t)
    (ht : Turn (s.view i) got l) (hp : Passes (s.view i) got l)
    (halive : (s.pipe i).deleted = false)
    (hgot : got.bind newPipe ≠ none → (s.pipe i).state = .termReqSent1 →
      ¬ Awaits (s.pipe i.peer)) : Left t i := by
  intro hstate hdeleted hawaits
  rw [hc.pipe] at hstate hdeleted
  rw [hc.peer] at hawaits
  rw [hc.pipe, hc.peer, hc.outbound, hc.sent]
  by_cases hbefore : (s.pipe i).state = .termReqSent1
  · have hnew : got.bind newPipe = none := by
      by_contra hne
      exact hgot hne hbefore hawaits
    obtain ⟨p, q, hout, hq, hd, hwake⟩ := hleft hbefore halive hawaits
    obtain ⟨q', hq', hd'⟩ := hp.outbound hbefore hstate hnew p q hq hd
    refine ⟨p, q', ?_, hq', hd', ?_⟩
    · have hsilent : (phase l.pipe).silent = false := by
        simp [phase, hdeleted, hstate, Phase.silent]
      rw [ht.outpipe, hsilent, hnew]
      exact hout
    · intro hsame hasleep
      exact mem_append_left _ (hwake hsame hasleep)
  · obtain ⟨p, q, hout, hq, hd, hmem⟩ := hp.starts hbefore hstate
    refine ⟨p, q, hout, hq, hd, ?_⟩
    intro _ _
    exact mem_append_right _ hmem

theorem left_of_reader (hleft : Left s i.peer) (hsafe : Safe s) (hc : Committed s i rest l t)
    (hp : Passes (s.view i) got l) (hbox : s.mailbox i = got.toList ++ rest) :
    Left t i.peer := by
  intro hstate hdeleted hawaits
  rw [Side.peer_peer, hc.pipe] at hawaits
  rw [hc.peer] at hstate hdeleted
  rw [Side.peer_peer, hc.peer, hc.inbound, hc.pipe, hc.taken]
  have hbefore : Awaits (s.pipe i) := hp.awaits hawaits
  have hleft' := hleft hstate hdeleted
  rw [Side.peer_peer] at hleft'
  obtain ⟨p, q, hout, hq, hd, hwake⟩ := hleft' hbefore
  have hle : p ≤ (s.pipe i).inpipe := by
    have := (hsafe.chain i.peer p hout).1
    rwa [Side.peer_peer] at this
  obtain ⟨q', hq', hd'⟩ := hp.inbound hawaits p hle q hq hd
  refine ⟨p, q', hout, hq', hd', ?_⟩
  intro hsame hasleep
  obtain ⟨hinpipe, hcases⟩ := hp.asleep hawaits hasleep
  rcases hcases with ⟨hasleep', hgot⟩ | hempty
  · have hmem := hwake (hsame.trans hinpipe) hasleep'
    rw [hbox] at hmem
    rcases mem_append.mp hmem with hmem | hmem
    · exact absurd (Option.mem_toList.mp hmem) hgot
    · exact hmem
  · rw [← hsame] at hempty
    exact absurd hd' (hempty q' hq')

/-- A system and whether `terminate` was called on one of its ends. -/
structure Watched where
  system : System
  terminated : Bool := false

def isTerminate : Input → Bool
  | .call _ (.terminate _) => true
  | _ => false

def watch (w : Watched) (input : Input) : Option Watched :=
  (step w.system input).map fun s =>
    { system := s, terminated := w.terminated || isTerminate input }

def WatchedInitial (w : Watched) : Prop := Initial w.system ∧ w.terminated = false

def Guarded (w : Watched) (input : Input) : Prop :=
  HwmsAllowed w.system input ∧ DelimiterSafe w.system input
  deriving Decidable

structure Completing (w : Watched) : Prop where
  safe : Safe w.system
  left : ∀ i, Left w.system i
  begun : w.terminated = true → ∃ i, phase (w.system.pipe i) ≠ .opened

theorem completing_of_turn (h : Completing w) (hc : Committed w.system i rest l t)
    (ht : Turn (w.system.view i) got l) (hp : Passes (w.system.view i) got l)
    (hbox : w.system.mailbox i = got.toList ++ rest) (halive : (w.system.pipe i).deleted = false)
    (hgot : got.bind newPipe ≠ none → (w.system.pipe i).state = .termReqSent1 →
      ¬ Awaits (w.system.pipe i.peer))
    (hterminate : isTerminate input = true → phase l.pipe ≠ .opened) :
    Completing { system := t, terminated := w.terminated || isTerminate input } := by
  obtain ⟨sent, hmove, -⟩ := ht.move
  constructor
  · exact h.safe.committed hc ht hbox halive
  · intro j
    rcases Side.eq_or_eq_peer i j with rfl | rfl
    · exact left_of_writer (h.left j) hc ht hp halive hgot
    · exact left_of_reader (h.left i.peer) h.safe hc hp hbox
  · intro hbegun
    rcases Bool.or_eq_true_iff.mp hbegun with hbegun | hnow
    · obtain ⟨j, hj⟩ := h.begun hbegun
      rcases Side.eq_or_eq_peer i j with rfl | rfl
      · refine ⟨j, ?_⟩
        rw [hc.pipe]
        exact hmove.not_opened hj
      · refine ⟨i.peer, ?_⟩
        rw [hc.peer]
        exact hj
    · refine ⟨i, ?_⟩
      rw [hc.pipe]
      exact hterminate hnow

theorem Completing.step {w' : Watched} (h : Completing w) (hguard : Guarded w input)
    (hstep : watch w input = some w') : Completing w' := by
  obtain ⟨t, hstep', rfl⟩ := Option.map_eq_some_iff.mp hstep
  obtain ⟨hallowed, hsafe⟩ := hguard
  obtain ⟨-, hacts⟩ := step_acts hstep'
  cases hacts with
  | @call i c halive hc =>
    have hlive := h.safe.live halive
    refine completing_of_turn h hc (turn_of_call h.safe halive hallowed)
      (passes_perform hlive c) rfl halive (fun hne => absurd rfl hne) ?_
    intro hterm
    cases c with
    | terminate delay => exact terminate_not_opened delay
    | _ => cases hterm
  | @deliver i c rest halive hbox hc =>
    refine completing_of_turn h hc (turn_process (h.safe.live halive) rfl (h.safe.expected hbox))
      (passes_process c) hbox halive ?_ (by rintro ⟨⟩)
    intro hne hstate
    simp only [DelimiterSafe, hbox, head?_cons] at hsafe
    cases c with
    | hiccup p => exact hsafe hstate
    | _ => exact absurd rfl hne
  | late hgone hpending => exact absurd (h.safe.gone _ hgone) hpending

theorem WatchedInitial.completing (h : WatchedInitial w) : Completing w := by
  obtain ⟨hinit, hterm⟩ := h
  refine ⟨hinit.safe, ?_, ?_⟩
  · obtain ⟨hwms, conflate, hs⟩ := hinit
    intro i hstate
    rw [hs] at hstate
    cases hstate
  · rw [hterm]
    rintro ⟨⟩

/-- Every live end whose reads are permitted was told that there is nothing to read. -/
def ReadOut (s : System) : Prop :=
  ∀ i, (s.pipe i).deleted = false →
    (s.pipe i).state = .active ∨ (s.pipe i).state = .waitingForDelimiter →
    (s.pipe i).inActive = false
  deriving Decidable

theorem phase_eq_asking (h : phase p = .asking) : p.deleted = false ∧ p.state = .termReqSent1 := by
  unfold phase at h
  split at h
  · cases h
  · rename_i halive
    refine ⟨by simpa using halive, ?_⟩
    cases hstate : p.state <;> simp_all

theorem phase_eq_asked (h : phase p = .asked) :
    p.deleted = false ∧ p.state = .waitingForDelimiter := by
  unfold phase at h
  split at h
  · cases h
  · rename_i halive
    refine ⟨by simpa using halive, ?_⟩
    cases hstate : p.state <;> simp_all

theorem phase_eq_gone (h : phase p = .gone) : p.deleted = true := by
  unfold phase at h
  split at h
  · assumption
  · cases hstate : p.state <;> simp_all

/-- An end that has read everything does not wait for a peer that has terminated. -/
theorem Completing.not_waiting (h : Completing w) (hempty : ∀ i, w.system.mailbox i = [])
    (hread : ReadOut w.system) (hasking : phase (w.system.pipe i) = .asking)
    (hasked : phase (w.system.pipe i.peer) = .asked) : False := by
  obtain ⟨halive, hstate⟩ := phase_eq_asking hasking
  obtain ⟨halive', hstate'⟩ := phase_eq_asked hasked
  obtain ⟨p, q, hout, -, -, hwake⟩ := h.left i hstate halive ⟨halive', .inl hstate'⟩
  obtain ⟨hle, hchain⟩ := h.safe.chain i p hout
  have hsame : p = (w.system.pipe i.peer).inpipe := by
    rw [hempty i] at hchain
    have hlength := congrArg length hchain
    simp only [length_range'] at hlength
    change 0 = _ at hlength
    omega
  have hmem := hwake hsame (hread i.peer halive' (.inr hstate'))
  rw [hempty] at hmem
  cases hmem

/-- Once `terminate` was called, nothing is under way and everything has been read,
both ends are gone, as long as no hiccup has taken a delimiter away that is awaited. -/
theorem terminated_completes {w : Watched} (h : Reach WatchedInitial Guarded watch w)
    (hterm : w.terminated = true) (hempty : ∀ i, w.system.mailbox i = [])
    (hread : ReadOut w.system) : ∀ i, (w.system.pipe i).deleted = true := by
  have hinv : Completing w := by
    apply h.invariant (fun w hw => WatchedInitial.completing hw)
    intro w input w' hw hguard hstep
    exact hw.step hguard hstep
  have hnothing : ∀ i, underway (phase (w.system.pipe i)) (phase (w.system.pipe i.peer)) =
      some [] := by
    intro i
    have hto := hinv.safe.agreed i
    change _ = some (notes (w.system.mailbox i)) at hto
    rw [hempty i] at hto
    exact hto
  intro i
  have hpeer := hnothing i.peer
  rw [Side.peer_peer] at hpeer
  rcases phases_of_nothing (hnothing i) hpeer with ⟨hi, hj⟩ | ⟨hi, hj⟩ | ⟨hi, hj⟩ | ⟨hi, -⟩
  · obtain ⟨j, hne⟩ := hinv.begun hterm
    rcases Side.eq_or_eq_peer i j with rfl | rfl
    · exact absurd hi hne
    · exact absurd hj hne
  · exact (hinv.not_waiting hempty hread hi hj).elim
  · exact (hinv.not_waiting hempty hread hj (by rw [Side.peer_peer]; exact hi)).elim
  · exact phase_eq_gone hi

/-- A hiccup that is processed before the peer terminates does no harm. -/
def hiccupRun : List Input :=
  [.call .first .hiccup, .deliver .second, .call .second (.terminate true), .deliver .first,
    .deliver .first, .call .first .read, .deliver .second, .deliver .first]

theorem hiccupRun_completes : ∃ w, Reach WatchedInitial Guarded watch w ∧
    w.terminated = true ∧ (∀ i, w.system.mailbox i = []) ∧ ReadOut w.system ∧
    ∀ i, (w.system.pipe i).deleted = true := by
  have hrun : ∃ w, Reach WatchedInitial Guarded watch w ∧ w.terminated = true ∧
      (∀ i, w.system.mailbox i = []) ∧ ReadOut w.system := by
    refine Reach.of_exec (s := { system := pipepair (fun _ => 1000) fun _ => false }) Guarded watch
      hiccupRun ?_ ⟨⟨_, _, rfl⟩, rfl⟩
    decide +kernel
  obtain ⟨w, hreach, hterm, hempty, hread⟩ := hrun
  exact ⟨w, hreach, hterm, hempty, hread, terminated_completes hreach hterm hempty hread⟩

/-- A hiccup that crosses the termination takes the delimiter with it: one end waits
for ever, the other one for its acknowledgement. -/
theorem hiccup_loses_delimiter : ∃ w, Reach WatchedInitial Always watch w ∧
    w.terminated = true ∧ (∀ i, w.system.mailbox i = []) ∧ ReadOut w.system ∧
    ∀ i, (w.system.pipe i).deleted = false := by
  refine Reach.of_exec (s := { system := pipepair (fun _ => 1000) fun _ => false }) Always watch
    [.call .second (.terminate true), .call .first .hiccup, .deliver .first, .deliver .first,
      .deliver .second, .call .first .read] ?_ ⟨⟨_, _, rfl⟩, rfl⟩
  decide +kernel

end Systems

end Uzmq.PipeCompletion
