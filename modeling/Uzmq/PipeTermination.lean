import Uzmq.Pipes

/-!
# The termination handshake of a pipe

The states of the two ends and the termination commands under way follow the
closing handshake. From this no assertion of `pipe_t` fails, no queue is used after
it was deleted, and an end gets no command after its own deallocation, as long as
`send_hwms_to_peer` is not called on an end that has acknowledged.
-/

namespace Uzmq.PipeTermination

open Option List
open Message Handshake Pipes Runs

def phase (p : Pipe) : Phase :=
  if p.deleted then .gone
  else
    match p.state with
    | .active => .opened
    | .delimiterReceived => .opened
    | .waitingForDelimiter => .asked
    | .termAckSent => .answered
    | .termReqSent1 => .asking
    | .termReqSent2 => .crossed

def note : Command → Option Note
  | .pipeTerm => some .request
  | .pipeTermAck => some .answer
  | _ => none

def newPipe : Command → Option Nat
  | .hiccup p => some p
  | _ => none

def notes (l : List Command) : List Note := l.filterMap note

/-- The queues announced by the commands. -/
def hiccups (l : List Command) : List Nat := l.filterMap newPipe

/-- Nothing follows an acknowledgement, and no hiccup follows a request. -/
def Before (a b : Command) : Prop :=
  a ≠ .pipeTermAck ∧ (a = .pipeTerm → newPipe b = none)

variable {p : Nat} {c : Command} {new : List Command} {got : Option Command} {q q' : UPipe}

section Methods
variable {l l' l'' : Local}

/-- What an end finds when it executes a method. -/
structure Live (l : Local) : Prop where
  inbound : (l.inbound l.pipe.inpipe).isSome = true
  outbound : ∀ p ∈ l.pipe.outpipe, (l.outbound p).isSome = true
  outpipe : l.pipe.outpipe = none ↔ (phase l.pipe).silent = true
  deleted : l.pipe.deleted = false
  failed : l.failed = false

/-- Commands that play no role in the handshake. -/
def Plain (c : Command) : Prop := note c = none ∧ newPipe c = none

/-- A method that changes neither the phase nor which queues there are. -/
structure Quiet (l l' : Local) : Prop where
  phase : phase l'.pipe = phase l.pipe
  inpipe : l'.pipe.inpipe = l.pipe.inpipe
  outpipe : l'.pipe.outpipe = l.pipe.outpipe
  deleted : l'.pipe.deleted = l.pipe.deleted
  inbound : ∀ j, (l'.inbound j).isSome = (l.inbound j).isSome
  outbound : ∀ j, (l'.outbound j).isSome = (l.outbound j).isSome
  failed : l'.failed = l.failed
  sent : ∃ new, l'.sent = l.sent ++ new ∧ (∀ c ∈ new, Plain c) ∧
    ((PipeTermination.phase l.pipe).silent = true → new = [])

theorem Quiet.refl (l : Local) : Quiet l l :=
  ⟨rfl, rfl, rfl, rfl, fun _ => rfl, fun _ => rfl, rfl, [], by simp, by simp, fun _ => rfl⟩

theorem Quiet.trans (h : Quiet l l') (h' : Quiet l' l'') : Quiet l l'' := by
  obtain ⟨new, hsent, hplain, hsilent⟩ := h.sent
  obtain ⟨new', hsent', hplain', hsilent'⟩ := h'.sent
  constructor
  · exact h'.phase.trans h.phase
  · exact h'.inpipe.trans h.inpipe
  · exact h'.outpipe.trans h.outpipe
  · exact h'.deleted.trans h.deleted
  · intro j
    exact (h'.inbound j).trans (h.inbound j)
  · intro j
    exact (h'.outbound j).trans (h.outbound j)
  · exact h'.failed.trans h.failed
  · refine ⟨new ++ new', ?_, ?_, ?_⟩
    · rw [hsent', hsent, append_assoc]
    · exact forall_mem_append.mpr ⟨hplain, hplain'⟩
    · intro hs
      rw [hsilent hs, hsilent' (by rw [h.phase]; exact hs)]
      rfl

theorem Quiet.live (h : Quiet l l') (hl : Live l) : Live l' := by
  constructor
  · rw [h.inpipe, h.inbound]
    exact hl.inbound
  · intro p hp
    rw [h.outpipe] at hp
    rw [h.outbound]
    exact hl.outbound p hp
  · rw [h.outpipe, h.phase]
    exact hl.outpipe
  · exact h.deleted.trans hl.deleted
  · exact h.failed.trans hl.failed

theorem quiet_modify {f : Pipe → Pipe} (hphase : phase (f l.pipe) = phase l.pipe)
    (hin : (f l.pipe).inpipe = l.pipe.inpipe) (hout : (f l.pipe).outpipe = l.pipe.outpipe)
    (hdeleted : (f l.pipe).deleted = l.pipe.deleted) : Quiet l (l.modify f) :=
  ⟨hphase, hin, hout, hdeleted, fun _ => rfl, fun _ => rfl, rfl, [], by simp [Local.modify],
    by simp, fun _ => rfl⟩

theorem quiet_setIn (hl : Live l) (q : UPipe) : Quiet l (l.setIn (some q)) := by
  refine ⟨rfl, rfl, rfl, rfl, ?_, fun _ => rfl, rfl, [], by simp [Local.setIn], by simp,
    fun _ => rfl⟩
  intro j
  rcases eq_or_ne j l.pipe.inpipe with rfl | hj
  · simp [Local.setIn, hl.inbound]
  · simp [Local.setIn, hj]

theorem quiet_setOut (hp : (l.outbound p).isSome = true) (q : UPipe) :
    Quiet l (l.setOut p (some q)) := by
  refine ⟨rfl, rfl, rfl, rfl, fun _ => rfl, ?_, rfl, [], by simp [Local.setOut], by simp,
    fun _ => rfl⟩
  intro j
  rcases eq_or_ne j p with rfl | hj
  · simp [Local.setOut, hp]
  · simp [Local.setOut, hj]

theorem quiet_send (hplain : Plain c) (hsilent : (phase l.pipe).silent = false) :
    Quiet l (l.send c) := by
  refine ⟨rfl, rfl, rfl, rfl, fun _ => rfl, fun _ => rfl, rfl, [c], rfl, ?_, ?_⟩
  · intro d hd
    rw [mem_singleton.mp hd]
    exact hplain
  · intro hs
    rw [hs] at hsilent
    cases hsilent

section Frames

def Delimited (q : UPipe) : Prop := Local.delimiter ∈ q.readable

/-- The end and its inbound queues are as before, but for fields that do not matter
here, and so are the outbound queues if `terminate` was called. -/
structure Calm (l l' : Local) : Prop where
  state : l'.pipe.state = l.pipe.state
  delay : l'.pipe.delay = l.pipe.delay
  deleted : l'.pipe.deleted = l.pipe.deleted
  inActive : l'.pipe.inActive = l.pipe.inActive
  inpipe : l'.pipe.inpipe = l.pipe.inpipe
  inbound : l'.inbound = l.inbound
  outbound : l.pipe.state = .termReqSent1 → ∀ p q, l.outbound p = some q → Delimited q →
    ∃ q', l'.outbound p = some q' ∧ Delimited q'

theorem Calm.refl (l : Local) : Calm l l :=
  ⟨rfl, rfl, rfl, rfl, rfl, rfl, fun _ _ q hq hd => ⟨q, hq, hd⟩⟩

theorem Calm.trans (h : Calm l l') (h' : Calm l' l'') : Calm l l'' := by
  constructor
  · exact h'.state.trans h.state
  · exact h'.delay.trans h.delay
  · exact h'.deleted.trans h.deleted
  · exact h'.inActive.trans h.inActive
  · exact h'.inpipe.trans h.inpipe
  · exact h'.inbound.trans h.inbound
  · intro hstate p q hq hd
    obtain ⟨q', hq', hd'⟩ := h.outbound hstate p q hq hd
    exact h'.outbound (by rw [h.state]; exact hstate) p q' hq' hd'

theorem calm_setOut {p : Nat} (hq : l.outbound p = some q)
    (hkeep : l.pipe.state = .termReqSent1 → Delimited q → Delimited q') :
    Calm l (l.setOut p (some q')) := by
  refine ⟨rfl, rfl, rfl, rfl, rfl, rfl, ?_⟩
  intro hstate j r hr hd
  rcases eq_or_ne j p with rfl | hj
  · rw [hq] at hr
    cases hr
    exact ⟨q', by simp [Local.setOut], hkeep hstate hd⟩
  · exact ⟨r, by simpa [Local.setOut, hj] using hr, hd⟩

/-- A method that changes only counters, the outbound queue and what is sent. -/
structure Minor (l l' : Local) : Prop where
  quiet : Quiet l l'
  calm : Calm l l'

theorem Minor.refl (l : Local) : Minor l l := ⟨.refl l, .refl l⟩

theorem Minor.trans (h : Minor l l') (h' : Minor l' l'') : Minor l l'' :=
  ⟨h.quiet.trans h'.quiet, h.calm.trans h'.calm⟩

theorem minor_modify {f : Pipe → Pipe} (hstate : (f l.pipe).state = l.pipe.state)
    (hdelay : (f l.pipe).delay = l.pipe.delay) (hdeleted : (f l.pipe).deleted = l.pipe.deleted)
    (hactive : (f l.pipe).inActive = l.pipe.inActive)
    (hin : (f l.pipe).inpipe = l.pipe.inpipe) (hout : (f l.pipe).outpipe = l.pipe.outpipe) :
    Minor l (l.modify f) := by
  have hphase : phase (f l.pipe) = phase l.pipe := by
    unfold phase
    rw [hdeleted, hstate]
  refine ⟨quiet_modify hphase hin hout hdeleted, ?_⟩
  exact ⟨hstate, hdelay, hdeleted, hactive, hin, rfl, fun _ _ q hq hd => ⟨q, hq, hd⟩⟩

theorem calm_send (c : Command) : Calm l (l.send c) :=
  ⟨rfl, rfl, rfl, rfl, rfl, rfl, fun _ _ q hq hd => ⟨q, hq, hd⟩⟩

theorem minor_send (hplain : Plain c) (hsilent : (phase l.pipe).silent = false) :
    Minor l (l.send c) :=
  ⟨quiet_send hplain hsilent, calm_send c⟩

theorem minor_setOut (hq : l.outbound p = some q)
    (hkeep : l.pipe.state = .termReqSent1 → Delimited q → Delimited q') :
    Minor l (l.setOut p (some q')) :=
  ⟨quiet_setOut (hq ▸ rfl) q', calm_setOut hq hkeep⟩

theorem minor_rollback (hl : Live l) : Minor l l.rollback := by
  unfold Local.rollback
  cases hout : l.pipe.outpipe with
  | none => exact Minor.refl l
  | some p =>
    obtain ⟨q, hq⟩ := isSome_iff_exists.mp (hl.outbound p hout)
    simp only [hq, unwriteAll_ok, if_true]
    apply minor_setOut hq
    intro _ hd
    unfold Delimited
    rw [(unwriteAll_frame _ q).1]
    exact hd

theorem rollback_sent : l.rollback.sent = l.sent := by
  unfold Local.rollback
  split
  · rfl
  · split
    · rfl
    · dsimp only
      split <;> rfl

theorem minor_flush (hl : Live l) : Minor l l.flush := by
  unfold Local.flush
  split
  · exact Minor.refl l
  cases hout : l.pipe.outpipe with
  | none => exact Minor.refl l
  | some p =>
    obtain ⟨q, hq⟩ := isSome_iff_exists.mp (hl.outbound p hout)
    have hsilent : (phase l.pipe).silent = false := by
      have := hl.outpipe.not
      simpa [hout] using this
    simp only [hq]
    refine Minor.trans ?_ (minor_send ⟨rfl, rfl⟩ hsilent)
    exact minor_setOut hq fun _ => UPipe.readable_flush

theorem delimited_write (hd : Delimited q) :
    Delimited (q.write Local.delimiter false (by simp)) := by
  cases q with
  | normal queue more => exact hd
  | conflate front => exact mem_singleton_self _

theorem minor_writeDelimiter (hl : Live l) : Minor l l.writeDelimiter := by
  unfold Local.writeDelimiter
  cases hout : l.pipe.outpipe with
  | none => exact Minor.refl l
  | some p =>
    have hback := minor_rollback hl
    have hsome := (hback.quiet.live hl).outbound p (by rw [hback.quiet.outpipe, hout]; rfl)
    obtain ⟨q, hq⟩ := isSome_iff_exists.mp hsome
    have hwrite := hback.trans (minor_setOut hq fun _ => delimited_write)
    simp only [hq]
    exact hwrite.trans (minor_flush (hwrite.quiet.live hl))

theorem minor_stopOutbound (hl : Live l) : Minor l l.stopOutbound := by
  have hstop : Minor l (l.modify fun p => { p with outActive := false }) := by
    apply minor_modify <;> rfl
  exact hstop.trans (minor_writeDelimiter (hstop.quiet.live hl))

theorem minor_countRead (msg : Msg) : Minor l (l.countRead msg) := by
  unfold Local.countRead
  split
  · apply minor_modify <;> rfl
  · exact Minor.refl l

theorem minor_reportRead (hopen : (phase l.pipe).silent = false) : Minor l l.reportRead := by
  unfold Local.reportRead
  split
  · exact minor_send ⟨rfl, rfl⟩ hopen
  · exact Minor.refl l

theorem minor_countWritten (msg : Msg) : Minor l (l.countWritten msg) := by
  unfold Local.countWritten
  split
  · apply minor_modify <;> rfl
  · exact Minor.refl l

theorem minor_checkWrite : Minor l l.checkWrite.1 := by
  unfold Local.checkWrite
  split
  · exact Minor.refl l
  · split
    · dsimp only
      apply minor_modify <;> rfl
    · exact Minor.refl l

theorem minor_write (hl : Live l) (msg : Msg) : Minor l (l.write msg).1 := by
  have hwrote := write_wrote l msg
  generalize l.write msg = r at hwrote ⊢
  cases hwrote with
  | refused => exact Minor.refl l
  | full =>
    dsimp only
    apply minor_modify <;> rfl
  | lost hlost hstate =>
    cases hp : l.pipe.outpipe with
    | none =>
      have := hl.outpipe.mp hp
      simp [phase, hl.deleted, hstate, Phase.silent] at this
    | some p => simpa [hlost p hp] using hl.outbound p hp
  | put hstate _ _ _ hq =>
    refine (minor_setOut hq ?_).trans (minor_countWritten msg)
    intro hterm
    cases hstate.symm.trans hterm

theorem minor_processActivateWrite (msgsRead : Nat) :
    Minor l (l.processActivateWrite msgsRead) := by
  have hfirst : Minor l (l.modify fun p => { p with peersMsgsRead := msgsRead }) := by
    apply minor_modify <;> rfl
  unfold Local.processActivateWrite
  dsimp only
  split
  · refine hfirst.trans ?_
    apply minor_modify <;> rfl
  · exact hfirst

theorem minor_setHwms (inhwm outhwm : Int) : Minor l (l.setHwms inhwm outhwm) := by
  apply minor_modify <;> rfl

end Frames

/-- What a method or the processing of a command does, seen from the handshake. -/
structure Turn (l : Local) (got : Option Command) (l' : Local) : Prop where
  failed : l'.failed = false
  move : ∃ sent, Move (phase l.pipe) (got.bind note) sent (phase l'.pipe) ∧
    notes l'.sent = sent.toList
  silent : (phase l.pipe).silent = true → l'.sent = []
  ordered : l'.sent.Pairwise Before
  outpipe : l'.pipe.outpipe = if (phase l'.pipe).silent then none
    else (got.bind newPipe).or l.pipe.outpipe
  renewed : l'.pipe.inpipe = l.pipe.inpipe ∧ hiccups l'.sent = [] ∨
    phase l.pipe = .opened ∧ l'.pipe.inpipe = l.pipe.inpipe + 1 ∧
      hiccups l'.sent = [l.pipe.inpipe + 1]
  inbound : l'.pipe.deleted = false → ∀ j, (l.inbound j).isSome = true →
    (l'.inbound j).isSome = true
  current : l'.pipe.deleted = false → (l'.inbound l'.pipe.inpipe).isSome = true
  outbound : ∀ j, (l.outbound j).isSome = true →
    (got.bind newPipe ≠ none → l.pipe.outpipe ≠ some j) → (l'.outbound j).isSome = true

theorem Live.outpipe_eq (hl : Live l) :
    l.pipe.outpipe = if (phase l.pipe).silent then none else l.pipe.outpipe := by
  split
  · rename_i hsilent
    exact hl.outpipe.mpr hsilent
  · rfl

theorem Live.outpipe_ne (hl : Live l) (hopen : (phase l.pipe).silent = false) :
    l.pipe.outpipe ≠ none := by
  intro hnone
  cases hopen.symm.trans (hl.outpipe.mp hnone)

theorem phase_requestTerm (hl : Live l) : phase l.requestTerm.pipe = .asking := by
  simp [phase, Local.requestTerm, Local.send, Local.modify, hl.deleted]

theorem Live.requestTerm (hl : Live l) (hopened : phase l.pipe = .opened) : Live l.requestTerm := by
  refine { hl with outpipe := ?_ }
  rw [phase_requestTerm hl]
  exact iff_of_false (hl.outpipe_ne (by rw [hopened]; rfl)) nofun

theorem notes_of_plain (h : ∀ c ∈ new, Plain c) : notes new = [] :=
  filterMap_eq_nil_iff.mpr fun c hc => (h c hc).1

theorem hiccups_of_plain (h : ∀ c ∈ new, Plain c) : hiccups new = [] :=
  filterMap_eq_nil_iff.mpr fun c hc => (h c hc).2

theorem before_of_plain {a b : Command} (ha : a ≠ .pipeTermAck) (hb : Plain b) : Before a b :=
  ⟨ha, fun _ => hb.2⟩

theorem Plain.ne_ack (h : Plain c) : c ≠ .pipeTermAck := by
  rintro rfl
  cases h.1

theorem pairwise_of_plain (h : ∀ c ∈ new, Plain c) : new.Pairwise Before := by
  apply pairwise_of_forall_mem_list
  intro a ha b hb
  exact before_of_plain (h a ha).ne_ack (h b hb)

theorem Turn.quiet_before (h : Quiet l l') (ht : Turn l' got l'') : Turn l got l'' := by
  constructor
  · exact ht.failed
  · rw [← h.phase]
    exact ht.move
  · rw [← h.phase]
    exact ht.silent
  · exact ht.ordered
  · rw [← h.outpipe]
    exact ht.outpipe
  · rw [← h.phase, ← h.inpipe]
    exact ht.renewed
  · intro hdeleted j hj
    exact ht.inbound hdeleted j (by rw [h.inbound]; exact hj)
  · exact ht.current
  · intro j hj hne
    rw [← h.outpipe] at hne
    exact ht.outbound j (by rw [h.outbound]; exact hj) hne

theorem Turn.quiet_after (ht : Turn l got l') (h : Quiet l' l'')
    (hdeleted : l'.pipe.deleted = false) : Turn l got l'' := by
  obtain ⟨new, hnew, hplain, hsilent⟩ := h.sent
  obtain ⟨sent, hmove, hnotes⟩ := ht.move
  constructor
  · exact h.failed.trans ht.failed
  · refine ⟨sent, ?_, ?_⟩
    · rw [h.phase]
      exact hmove
    · rw [hnew, notes, filterMap_append]
      change notes l'.sent ++ notes new = _
      rw [hnotes, notes_of_plain hplain, append_nil]
  · intro hs
    rw [hnew, ht.silent hs, hsilent (hmove.silent_of_silent hs)]
    rfl
  · rw [hnew]
    apply pairwise_append.mpr
    refine ⟨ht.ordered, pairwise_of_plain hplain, ?_⟩
    intro a ha b hb
    apply before_of_plain _ (hplain b hb)
    rintro rfl
    have hanswer : Note.answer ∈ notes l'.sent := mem_filterMap.mpr ⟨_, ha, rfl⟩
    rw [hnotes, mem_toList] at hanswer
    rw [hsilent (hmove.silent_of_answer hanswer)] at hb
    cases hb
  · rw [h.outpipe, h.phase]
    exact ht.outpipe
  · have hhiccups : hiccups l''.sent = hiccups l'.sent := by
      rw [hnew, hiccups, filterMap_append]
      change hiccups l'.sent ++ hiccups new = _
      rw [hiccups_of_plain hplain, append_nil]
    rw [h.inpipe, hhiccups]
    exact ht.renewed
  · intro _ j hj
    rw [h.inbound]
    exact ht.inbound hdeleted j hj
  · intro _
    rw [h.inpipe, h.inbound]
    exact ht.current hdeleted
  · intro j hj hne
    rw [h.outbound]
    exact ht.outbound j hj hne

/-- The command of a note. -/
def command : Note → Command
  | .request => .pipeTerm
  | .answer => .pipeTermAck

theorem turn_of_move (sent : Option Note) (hl : Live l)
    (hmove : Move (phase l.pipe) (got.bind note) sent (phase l'.pipe))
    (hsent : l'.sent = sent.toList.map command)
    (hsilent : (phase l.pipe).silent = true → sent = none) (hfailed : l'.failed = l.failed)
    (hinpipe : l'.pipe.inpipe = l.pipe.inpipe)
    (houtpipe : l'.pipe.outpipe = if (phase l'.pipe).silent then none
      else (got.bind newPipe).or l.pipe.outpipe)
    (hinbound : l'.pipe.deleted = false → l'.inbound = l.inbound)
    (houtbound : l'.outbound = l.outbound) : Turn l got l' := by
  constructor
  · exact hfailed.trans hl.failed
  · refine ⟨sent, hmove, ?_⟩
    rw [hsent]
    rcases sent with _ | _ | _ <;> rfl
  · intro hs
    rw [hsent, hsilent hs]
    rfl
  · rw [hsent]
    cases sent with
    | none => exact .nil
    | some n => exact pairwise_singleton _ _
  · exact houtpipe
  · refine .inl ⟨hinpipe, ?_⟩
    rw [hsent]
    rcases sent with _ | _ | _ <;> rfl
  · intro hdeleted j hj
    rwa [hinbound hdeleted]
  · intro hdeleted
    rw [hinbound hdeleted, hinpipe]
    exact hl.inbound
  · intro j hj _
    rwa [houtbound]

theorem Quiet.turn (h : Quiet l l') (hl : Live l) (hsent : l.sent = [])
    (hgot : ∀ c ∈ got, Plain c) : Turn l got l' := by
  have hnote : got.bind note = none := by
    cases got with
    | none => rfl
    | some c => exact (hgot c rfl).1
  have hpipe : got.bind newPipe = none := by
    cases got with
    | none => rfl
    | some c => exact (hgot c rfl).2
  have hstay : Turn l got l := by
    refine turn_of_move none hl ?_ hsent (fun _ => rfl) rfl rfl ?_ (fun _ => rfl) rfl
    · rw [hnote]
      exact .stay
    · rw [hpipe, none_or]
      exact hl.outpipe_eq
  exact hstay.quiet_after h hl.deleted

/-- An acknowledgement that does not end with the deallocation. -/
theorem turn_sendPipeTermAck {state : State} (hl : Live l) (hsent : l.sent = [])
    (hmove : Move (phase l.pipe) (got.bind note) (some .answer)
      (phase (l.sendPipeTermAck state).pipe)) (hopen : (phase l.pipe).silent = false) :
    Turn l got (l.sendPipeTermAck state) := by
  refine turn_of_move _ hl hmove ?_ ?_ rfl rfl ?_ (fun _ => rfl) rfl
  · simp [Local.sendPipeTermAck, Local.send, Local.modify, hsent, command]
  · intro hs
    cases hopen.symm.trans hs
  · rw [hmove.silent_of_answer rfl]
    rfl

theorem turn_processDelimiter (hl : Live l) (hsent : l.sent = [])
    (hstate : l.pipe.state = .active ∨ l.pipe.state = .waitingForDelimiter) :
    Turn l none l.processDelimiter := by
  unfold Local.processDelimiter
  rcases hstate with hstate | hstate
  · rw [hstate]
    have hphase : phase { l.pipe with state := .delimiterReceived } = phase l.pipe := by
      simp [phase, hl.deleted, hstate]
    refine Quiet.turn ?_ hl hsent (by simp)
    exact quiet_modify hphase rfl rfl rfl
  · rw [hstate]
    apply turn_sendPipeTermAck hl hsent
    · have hasked : phase l.pipe = .asked := by simp [phase, hl.deleted, hstate]
      have hanswered : phase (l.sendPipeTermAck .termAckSent).pipe = .answered := by
        simp [phase, Local.sendPipeTermAck, Local.send, Local.modify, hl.deleted]
      rw [hasked, hanswered]
      exact .resume
    · simp [phase, hl.deleted, hstate, Phase.silent]

theorem mayRead_state (h : l.mayRead = true) :
    l.pipe.state = .active ∨ l.pipe.state = .waitingForDelimiter := by
  simp only [Local.mayRead, Bool.and_eq_true, Bool.or_eq_true, beq_iff_eq] at h
  exact h.2

theorem silent_of_mayRead (hl : Live l) (h : l.mayRead = true) : (phase l.pipe).silent = false := by
  rcases mayRead_state h with hstate | hstate <;> simp [phase, hl.deleted, hstate, Phase.silent]

theorem turn_checkRead (hl : Live l) (hsent : l.sent = []) : Turn l none l.checkRead.1 := by
  have hchecked := checkRead_checked l
  generalize l.checkRead = r at hchecked ⊢
  cases hchecked with
  | refused | ready => exact (Quiet.refl l).turn hl hsent nofun
  | lost hlost => simpa [hlost] using hl.inbound
  | empty =>
    refine Quiet.turn ?_ hl hsent nofun
    dsimp only
    apply quiet_modify <;> rfl
  | @delimiter _ rest _ hmay =>
    have hquiet := quiet_setIn hl rest
    exact (turn_processDelimiter (hquiet.live hl) hsent (mayRead_state hmay)).quiet_before hquiet

theorem turn_read (hl : Live l) (hsent : l.sent = []) : Turn l none l.read.1 := by
  have hfetched := read_fetched l
  generalize l.read = r at hfetched ⊢
  cases hfetched with
  | refused => exact (Quiet.refl l).turn hl hsent nofun
  | lost hlost => simpa [hlost] using hl.inbound
  | @empty _ rest =>
    refine ((quiet_setIn hl rest).trans ?_).turn hl hsent nofun
    dsimp only
    apply quiet_modify <;> rfl
  | @delimiter _ rest _ _ hmay =>
    have hquiet := quiet_setIn hl rest
    exact (turn_processDelimiter (hquiet.live hl) hsent (mayRead_state hmay)).quiet_before hquiet
  | @part _ rest _ msg hmay =>
    have hcount := (quiet_setIn hl rest).trans (minor_countRead msg).quiet
    have hopen : (phase ((l.setIn (some rest)).countRead msg).pipe).silent = false := by
      rw [hcount.phase]
      exact silent_of_mayRead hl hmay
    exact (hcount.trans (minor_reportRead hopen).quiet).turn hl hsent nofun

section
variable (hl : Live l) (hsent : l.sent = [])
include hl hsent

theorem turn_terminate (delay : Bool) : Turn l none (l.terminate delay) := by
  obtain ⟨l₁, hl₁⟩ : ∃ l₁, l₁ = l.modify fun p => { p with delay := delay } := ⟨_, rfl⟩
  have hquiet : Quiet l l₁ := by
    rw [hl₁]
    apply quiet_modify <;> rfl
  have hlive := hquiet.live hl
  have hsent₁ : l₁.sent = [] := by
    rw [hl₁]
    exact hsent
  -- The request is the same in the two states from which it is made.
  have hrequest : phase l₁.pipe = .opened → Turn l none l₁.requestTerm.stopOutbound := by
    intro hopened
    have hasking := phase_requestTerm hlive
    have hsent' : l₁.requestTerm.sent = [.pipeTerm] := by
      simp [Local.requestTerm, Local.send, Local.modify, hsent₁]
    have hturn : Turn l₁ none l₁.requestTerm := by
      refine turn_of_move (some .request) hlive ?_ hsent' ?_ rfl rfl ?_ (fun _ => rfl) rfl
      · rw [hopened, hasking]
        exact .ask
      · rw [hopened]
        rintro ⟨⟩
      · rw [hasking]
        rfl
    have hstop := (minor_stopOutbound (hlive.requestTerm hopened)).quiet
    exact (hturn.quiet_after hstop hlive.deleted).quiet_before hquiet
  unfold Local.terminate
  simp only [← hl₁]
  cases hstate : l₁.pipe.state with
  | active | delimiterReceived => exact hrequest (by simp [phase, hlive.deleted, hstate])
  | waitingForDelimiter =>
    dsimp only
    split
    · exact (hquiet.trans (minor_stopOutbound hlive).quiet).turn hl hsent (by simp)
    have hback := (minor_rollback hlive).quiet
    have hlive' := hback.live hlive
    have hasked : phase l₁.rollback.pipe = .asked := by
      rw [hback.phase]
      simp [phase, hlive.deleted, hstate]
    have hanswered : phase (l₁.rollback.sendPipeTermAck .termAckSent).pipe = .answered := by
      simp [phase, Local.sendPipeTermAck, Local.send, Local.modify, hlive'.deleted]
    have hturn : Turn l₁.rollback none (l₁.rollback.sendPipeTermAck .termAckSent) := by
      apply turn_sendPipeTermAck hlive' (rollback_sent.trans hsent₁)
      · rw [hasked, hanswered]
        exact .resume
      · rw [hasked]
        rfl
    have hlive'' : Live (l₁.rollback.sendPipeTermAck .termAckSent) := by
      refine { hlive' with outbound := ?_, outpipe := ?_ }
      · rintro p ⟨⟩
      · rw [hanswered]
        exact ⟨fun _ => rfl, fun _ => rfl⟩
    exact (hturn.quiet_after (minor_stopOutbound hlive'').quiet hlive'.deleted).quiet_before
      (hquiet.trans hback)
  | termAckSent | termReqSent1 | termReqSent2 => exact hquiet.turn hl hsent (by simp)

theorem turn_hiccup : Turn l none l.hiccup := by
  unfold Local.hiccup
  split
  · exact (Quiet.refl l).turn hl hsent (by simp)
  rename_i hstate
  have hopened : phase l.pipe = .opened := by
    simp only [ne_eq, not_not] at hstate
    simp [phase, hl.deleted, hstate]
  constructor
  · exact hl.failed
  · refine ⟨none, ?_, ?_⟩
    · rw [hopened]
      change Move .opened none none (phase l.pipe)
      rw [hopened]
      exact .stay
    · simp [Local.send, Local.setIn, Local.modify, hsent, notes, note]
  · rw [hopened]
    rintro ⟨⟩
  · simp [Local.send, Local.setIn, Local.modify, hsent]
  · exact hl.outpipe_eq
  · refine .inr ⟨hopened, rfl, ?_⟩
    simp [Local.send, Local.setIn, Local.modify, hsent, hiccups, newPipe]
  · intro _ j hj
    by_cases hcur : j = l.pipe.inpipe + 1
    · subst hcur
      simp [Local.send, Local.setIn, Local.modify]
    · simpa [Local.send, Local.setIn, Local.modify, hcur] using hj
  · intro _
    simp [Local.send, Local.setIn, Local.modify]
  · intro j hj _
    exact hj

theorem turn_processHiccup (hopen : (phase l.pipe).silent = false) (pipe : Nat) :
    Turn l (some (.hiccup pipe)) (l.processHiccup pipe) := by
  obtain ⟨p, hp⟩ := ne_none_iff_exists'.mp (hl.outpipe_ne hopen)
  obtain ⟨q, hq⟩ := isSome_iff_exists.mp (hl.outbound p hp)
  unfold Local.processHiccup
  simp only [hp, hq]
  constructor
  · exact hl.failed
  · exact ⟨none, .stay, by simp [Local.modify, Local.setOut, hsent, notes]⟩
  · intro _
    exact hsent
  · simp [Local.modify, Local.setOut, hsent]
  · change some pipe = if (phase l.pipe).silent then none else _
    rw [hopen]
    rfl
  · refine .inl ⟨rfl, ?_⟩
    simp [Local.modify, Local.setOut, hsent, hiccups]
  · intro _ j hj
    exact hj
  · intro _
    exact hl.inbound
  · intro j hj hne
    have hj' : j ≠ p := by
      rintro rfl
      exact hne (by simp [newPipe]) hp
    simpa [Local.modify, Local.setOut, hj'] using hj

theorem turn_processPipeTerm (hphase : phase l.pipe = .opened ∨ phase l.pipe = .asking) :
    Turn l (some .pipeTerm) l.processPipeTerm := by
  have hopen : (phase l.pipe).silent = false := by
    rcases hphase with hphase | hphase
    · rw [hphase]
      rfl
    · rw [hphase]
      rfl
  have hafter : ∀ state, phase (l.sendPipeTermAck state).pipe =
      phase { l.pipe with state := state } := by
    intro state
    rfl
  have hnote : (some Command.pipeTerm).bind note = some .request := rfl
  unfold Local.processPipeTerm
  cases hstate : l.pipe.state with
  | active =>
    have hopened : phase l.pipe = .opened := by simp [phase, hl.deleted, hstate]
    dsimp only
    split
    · have hasked : phase { l.pipe with state := .waitingForDelimiter } = .asked := by
        simp [phase, hl.deleted]
      refine turn_of_move none hl ?_ hsent (fun _ => rfl) rfl rfl ?_ (fun _ => rfl) rfl
      · rw [hnote, hopened]
        change Move .opened _ _ (phase { l.pipe with state := .waitingForDelimiter })
        rw [hasked]
        exact .postpone
      · change _ = if (phase { l.pipe with state := .waitingForDelimiter }).silent then none else _
        rw [hasked]
        rfl
    · apply turn_sendPipeTermAck hl hsent _ hopen
      rw [hafter, hnote, hopened]
      simpa [phase, hl.deleted] using Move.reply
  | delimiterReceived =>
    have hopened : phase l.pipe = .opened := by simp [phase, hl.deleted, hstate]
    apply turn_sendPipeTermAck hl hsent _ hopen
    rw [hafter, hnote, hopened]
    simpa [phase, hl.deleted] using Move.reply
  | termReqSent1 =>
    have hasking : phase l.pipe = .asking := by simp [phase, hl.deleted, hstate]
    apply turn_sendPipeTermAck hl hsent _ hopen
    rw [hafter, hnote, hasking]
    simpa [phase, hl.deleted] using Move.cross
  | waitingForDelimiter | termAckSent | termReqSent2 => simp [phase, hl.deleted, hstate] at hphase

end

/-- The end of `process_pipe_term_ack`; `sent` is the acknowledgement sent before. -/
theorem turn_deallocate (sent : Option Note) (hl : Live l)
    (hin : l'.inbound = l.inbound) (hinpipe : l'.pipe.inpipe = l.pipe.inpipe)
    (houtbound : l'.outbound = l.outbound) (hout : l'.pipe.outpipe = none)
    (hfailed : l'.failed = l.failed) (hmove : Move (phase l.pipe) (some .answer) sent .gone)
    (hsent : l'.sent = sent.toList.map command)
    (hsilent : (phase l.pipe).silent = true → sent = none) :
    Turn l (some .pipeTermAck) l'.deallocate := by
  obtain ⟨q, hq⟩ := isSome_iff_exists.mp hl.inbound
  have hdealloc : l'.deallocate = (l'.setIn none).modify fun p => { p with deleted := true } := by
    unfold Local.deallocate
    simp only [hin, hinpipe, hq]
  rw [hdealloc]
  have hgone : phase ((l'.setIn none).modify fun p => { p with deleted := true }).pipe = .gone := by
    simp [phase, Local.modify]
  refine turn_of_move sent hl ?_ hsent hsilent hfailed hinpipe ?_ (by rintro ⟨⟩) houtbound
  · rw [hgone]
    exact hmove
  · rw [hgone]
    exact hout

theorem turn_processPipeTermAck (hl : Live l) (hsent : l.sent = [])
    (hphase : phase l.pipe = .asking ∨ phase l.pipe = .answered ∨ phase l.pipe = .crossed) :
    Turn l (some .pipeTermAck) l.processPipeTermAck := by
  have hout : (phase l.pipe).silent = true → l.pipe.outpipe = none := hl.outpipe.mpr
  unfold Local.processPipeTermAck
  cases hstate : l.pipe.state with
  | termReqSent1 =>
    have hasking : phase l.pipe = .asking := by simp [phase, hl.deleted, hstate]
    have hsent' : (l.sendPipeTermAck .termReqSent1).sent = [.pipeTermAck] := by
      simp [Local.sendPipeTermAck, Local.send, Local.modify, hsent]
    refine turn_deallocate (some .answer) hl rfl rfl rfl rfl rfl ?_ hsent' ?_
    · rw [hasking]
      exact Move.confirm
    · rw [hasking]
      rintro ⟨⟩
  | termAckSent =>
    have hanswered : phase l.pipe = .answered := by simp [phase, hl.deleted, hstate]
    refine turn_deallocate none hl rfl rfl rfl (hout (by rw [hanswered]; rfl)) rfl ?_ hsent
      fun _ => rfl
    rw [hanswered]
    exact Move.leave
  | termReqSent2 =>
    have hcrossed : phase l.pipe = .crossed := by simp [phase, hl.deleted, hstate]
    refine turn_deallocate none hl rfl rfl rfl (hout (by rw [hcrossed]; rfl)) rfl ?_ hsent
      fun _ => rfl
    rw [hcrossed]
    exact Move.leaveCrossed
  | active | delimiterReceived | waitingForDelimiter => simp [phase, hl.deleted, hstate] at hphase

theorem quiet_setNodelay : Quiet l l.setNodelay := by
  apply quiet_modify <;> rfl

theorem turn_perform (hl : Live l) (hsent : l.sent = []) {c : Call}
    (hc : ∀ inhwm outhwm, c = .sendHwmsToPeer inhwm outhwm → (phase l.pipe).silent = false) :
    Turn l none (perform l c) := by
  cases c with
  | checkRead => exact turn_checkRead hl hsent
  | read => exact turn_read hl hsent
  | checkWrite => exact minor_checkWrite.quiet.turn hl hsent nofun
  | write msg => exact (minor_write hl msg).quiet.turn hl hsent nofun
  | rollback => exact (minor_rollback hl).quiet.turn hl hsent nofun
  | flush => exact (minor_flush hl).quiet.turn hl hsent nofun
  | terminate delay => exact turn_terminate hl hsent delay
  | hiccup => exact turn_hiccup hl hsent
  | setNodelay => exact quiet_setNodelay.turn hl hsent nofun
  | setHwms inhwm outhwm => exact (minor_setHwms inhwm outhwm).quiet.turn hl hsent nofun
  | sendHwmsToPeer inhwm outhwm =>
    exact (quiet_send ⟨rfl, rfl⟩ (hc inhwm outhwm rfl)).turn hl hsent nofun

/-- A command that the phase of the end allows. -/
def Expected (p : Phase) : Command → Prop
  | .hiccup _ => p.silent = false
  | .pipeTerm => p = .opened ∨ p = .asking
  | .pipeTermAck => p = .asking ∨ p = .answered ∨ p = .crossed
  | _ => True

theorem turn_process (hl : Live l) (hsent : l.sent = []) (hc : Expected (phase l.pipe) c) :
    Turn l (some c) (process l c) := by
  cases c with
  | activateRead =>
    refine Quiet.turn ?_ hl hsent (by rintro c ⟨⟩; exact ⟨rfl, rfl⟩)
    simp only [process, Local.processActivateRead]
    split
    · apply quiet_modify <;> rfl
    · exact Quiet.refl l
  | activateWrite msgsRead =>
    exact (minor_processActivateWrite msgsRead).quiet.turn hl hsent
      (by rintro c ⟨⟩; exact ⟨rfl, rfl⟩)
  | hiccup pipe => exact turn_processHiccup hl hsent hc pipe
  | pipeTerm => exact turn_processPipeTerm hl hsent hc
  | pipeTermAck => exact turn_processPipeTermAck hl hsent hc
  | pipeHwm inhwm outhwm =>
    exact (minor_setHwms inhwm outhwm).quiet.turn hl hsent (by rintro c ⟨⟩; exact ⟨rfl, rfl⟩)

end Methods

section Systems
variable {s t : System} {i : Side} {got : Option Command} {rest : List Command} {l : Local}

/-- The handshake that the two ends carry out. -/
def net (s : System) : Net where
  phase i := phase (s.pipe i)
  notes i := notes (s.mailbox i)

/-- What holds in all runs. The queues from a writer to a reader are numbered in the
order of the hiccups: the writer has the first one, then come those announced by the
commands under way, and the reader has the last one. -/
structure Safe (s : System) : Prop where
  failed : s.failed = false
  agreed : (net s).Agreed
  ordered : ∀ i, (s.mailbox i).Pairwise Before
  gone : ∀ i, (s.pipe i).deleted = true → s.mailbox i = []
  outpipe : ∀ i, (s.pipe i).outpipe = none ↔ (phase (s.pipe i)).silent = true
  early : ∀ i, hiccups (s.mailbox i) ≠ [] → phase (s.pipe i) = .opened ∨ phase (s.pipe i) = .asking
  chain : ∀ i, ∀ p ∈ (s.pipe i).outpipe, p ≤ (s.pipe i.peer).inpipe ∧
    hiccups (s.mailbox i) = List.range' (p + 1) ((s.pipe i.peer).inpipe - p)
  queues : ∀ i, ∀ p ∈ (s.pipe i).outpipe, ∀ j, p ≤ j → j ≤ (s.pipe i.peer).inpipe →
    (s.queue i.peer j).isSome = true
  current : ∀ i, (s.pipe i).deleted = false → (s.queue i (s.pipe i).inpipe).isSome = true

theorem Safe.live (h : Safe s) (halive : (s.pipe i).deleted = false) : Live (s.view i) := by
  constructor
  · exact h.current i halive
  · intro p hp
    exact h.queues i p hp p (Nat.le_refl p) (h.chain i p hp).1
  · exact h.outpipe i
  · exact halive
  · rfl

theorem net_step (hc : Committed s i rest l t) (ht : Turn (s.view i) got l)
    (hbox : s.mailbox i = got.toList ++ rest) :
    ∃ sent, (net s).Step (net t) i (got.bind note) sent := by
  obtain ⟨sent, hmove, hnotes⟩ := ht.move
  refine ⟨sent, ?_⟩
  constructor
  · change Move _ _ _ (phase (t.pipe i))
    rw [hc.pipe]
    exact hmove
  · change notes (s.mailbox i) = _ ++ notes (t.mailbox i)
    rw [hc.taken, hbox]
    cases got with
    | none => rfl
    | some c =>
      cases hnote : note c with
      | none | some => simp [notes, hnote]
  · change notes (t.mailbox i.peer) = notes (s.mailbox i.peer) ++ _
    rw [hc.sent, ← hnotes]
    exact filterMap_append
  · change phase (t.pipe i.peer) = phase (s.pipe i.peer)
    rw [hc.peer]

theorem rest_of_ack (h : Safe s) (hbox : s.mailbox i = .pipeTermAck :: rest) : rest = [] := by
  have hordered := h.ordered i
  rw [hbox] at hordered
  cases rest with
  | nil => rfl
  | cons c rest =>
    have hbefore := (pairwise_cons.mp hordered).1 c mem_cons_self
    exact absurd rfl hbefore.1

theorem rest_of_term (h : Safe s) (hbox : s.mailbox i = .pipeTerm :: rest) : hiccups rest = [] := by
  have hordered := h.ordered i
  rw [hbox] at hordered
  apply filterMap_eq_nil_iff.mpr
  intro c hc
  exact ((pairwise_cons.mp hordered).1 c hc).2 rfl

theorem got_of_note {n : Note} (h : got.bind note = some n) : got = some (command n) := by
  cases got with
  | none => cases h
  | some c => cases c <;> cases h <;> rfl

/-- The queue announced by the next hiccup follows the one the end writes to. -/
theorem Safe.next_hiccup (h : Safe s) {q : Nat} (hp : (s.pipe i).outpipe = some p)
    (hbox : s.mailbox i = .hiccup q :: rest) :
    q = p + 1 ∧ q ≤ (s.pipe i.peer).inpipe ∧
      hiccups rest = List.range' (q + 1) ((s.pipe i.peer).inpipe - q) := by
  obtain ⟨hle, hchain⟩ := h.chain i p hp
  rw [hbox] at hchain
  change q :: hiccups rest = _ at hchain
  obtain ⟨n, hn⟩ : ∃ n, (s.pipe i.peer).inpipe - p = n + 1 := by
    cases hsub : (s.pipe i.peer).inpipe - p with
    | zero =>
      rw [hsub] at hchain
      cases hchain
    | succ n => exact ⟨n, rfl⟩
  rw [hn, List.range'_succ] at hchain
  obtain ⟨rfl, hrest⟩ := List.cons.inj hchain
  refine ⟨rfl, by omega, ?_⟩
  rw [hrest]
  congr 1
  omega

/-- The outbound queue of the end after its turn, and where it comes from. -/
theorem outpipe_after (h : Safe s) (ht : Turn (s.view i) got l)
    (hbox : s.mailbox i = got.toList ++ rest) (hp : l.pipe.outpipe = some p) :
    ∃ p₀, (s.pipe i).outpipe = some p₀ ∧ p₀ ≤ p ∧ p ≤ (s.pipe i.peer).inpipe ∧
      hiccups rest = List.range' (p + 1) ((s.pipe i.peer).inpipe - p) ∧
      (got.bind newPipe ≠ none → p₀ < p) := by
  obtain ⟨sent, hmove, -⟩ := ht.move
  have hsilent : (phase l.pipe).silent = false := by
    rw [Bool.eq_false_iff]
    intro hs
    have := ht.outpipe
    rw [hs, hp] at this
    cases this
  have hbefore : (s.pipe i).outpipe ≠ none := by
    intro hnone
    have := hmove.silent_of_silent ((h.outpipe i).mp hnone)
    rw [hsilent] at this
    cases this
  obtain ⟨p₀, hp₀⟩ := ne_none_iff_exists'.mp hbefore
  have hout := ht.outpipe
  rw [hsilent, hp] at hout
  change some p = (got.bind newPipe).or (s.pipe i).outpipe at hout
  refine ⟨p₀, hp₀, ?_⟩
  cases hnew : got.bind newPipe with
  | some q =>
    obtain ⟨c, rfl, hc⟩ := bind_eq_some_iff.mp hnew
    have hcq : c = .hiccup q := by
      cases c <;> simp_all [newPipe]
    subst hcq
    obtain ⟨hq, hle, hrest⟩ := h.next_hiccup hp₀ hbox
    rw [hnew] at hout
    cases hout
    exact ⟨by omega, hle, hrest, fun _ => by omega⟩
  | none =>
    rw [hnew, hp₀] at hout
    cases hout
    obtain ⟨hle, hchain⟩ := h.chain i p hp₀
    refine ⟨Nat.le_refl p, hle, ?_, fun hne => absurd rfl hne⟩
    rw [← hchain, hbox]
    cases got with
    | none => rfl
    | some c =>
      have hc : newPipe c = none := hnew
      simp [hiccups, hc]

section After
variable (h : Safe s) (hc : Committed s i rest l t) (ht : Turn (s.view i) got l)
include h hc ht

theorem silent_after (j : Side) : (t.pipe j).outpipe = none ↔ (phase (t.pipe j)).silent = true := by
  rcases Side.eq_or_eq_peer i j with rfl | rfl
  · obtain ⟨sent, hmove, -⟩ := ht.move
    rw [hc.pipe, ht.outpipe]
    constructor
    · intro hnone
      by_contra hopen
      simp only [hopen] at hnone
      have hnone' : (s.pipe j).outpipe = none := by
        have := (or_eq_none_iff.mp hnone).2
        exact this
      exact hopen (hmove.silent_of_silent ((h.outpipe j).mp hnone'))
    · intro hsilent
      rw [hsilent]
      rfl
  · rw [hc.peer]
    exact h.outpipe i.peer

variable (hbox : s.mailbox i = got.toList ++ rest)
include hbox

theorem agreed_after : (net t).Agreed := by
  obtain ⟨sent, hstep⟩ := net_step hc ht hbox
  exact hstep.agreed h.agreed

theorem ordered_after (j : Side) : (t.mailbox j).Pairwise Before := by
  rcases Side.eq_or_eq_peer i j with rfl | rfl
  · have hordered := h.ordered j
    rw [hbox] at hordered
    rw [hc.taken]
    exact (pairwise_append.mp hordered).2.1
  · rw [hc.sent]
    apply pairwise_append.mpr
    refine ⟨h.ordered i.peer, ht.ordered, ?_⟩
    intro a ha b hb
    have hto := h.agreed i.peer
    rw [Side.peer_peer] at hto
    constructor
    · rintro rfl
      -- The end has acknowledged and sends nothing.
      have hanswer : Note.answer ∈ (net s).notes i.peer := mem_filterMap.mpr ⟨_, ha, rfl⟩
      have hnil := ht.silent (silent_of_answer hto hanswer)
      rw [hnil] at hb
      cases hb
    · rintro rfl
      rcases ht.renewed with ⟨-, hnone⟩ | ⟨hopened, -, -⟩
      · exact filterMap_eq_nil_iff.mp hnone b hb
      -- The end is active and has sent no request.
      have hrequest : Note.request ∈ (net s).notes i.peer :=
        mem_filterMap.mpr ⟨_, ha, rfl⟩
      have hopened' : (net s).phase i = .opened := hopened
      rw [hopened'] at hto
      rw [(of_underway_opened hto).1] at hrequest
      cases hrequest

theorem gone_after (halive : (s.pipe i).deleted = false) (j : Side)
    (hj : (t.pipe j).deleted = true) : t.mailbox j = [] := by
  rcases Side.eq_or_eq_peer i j with rfl | rfl
  · obtain ⟨sent, hmove, -⟩ := ht.move
    rw [hc.pipe] at hj
    have hgone : phase l.pipe = .gone := by simp [phase, hj]
    have hnot : phase (s.view j).pipe ≠ .gone := by
      change phase (s.pipe j) ≠ .gone
      unfold phase
      rw [halive]
      cases (s.pipe j).state <;> simp
    rw [hgone] at hmove
    obtain rfl := got_of_note (hmove.answer_of_gone hnot)
    rw [hc.taken]
    exact rest_of_ack h hbox
  · rw [hc.peer] at hj
    have hgone : (net s).phase i.peer = .gone := by
      change phase (s.pipe i.peer) = .gone
      simp [phase, hj]
    have hto := h.agreed i.peer
    rw [hgone, Side.peer_peer] at hto
    rw [hc.sent, h.gone i.peer hj, ht.silent (of_underway_gone hto).2]
    rfl

theorem early_after (j : Side) (hj : hiccups (t.mailbox j) ≠ []) :
    phase (t.pipe j) = .opened ∨ phase (t.pipe j) = .asking := by
  rcases Side.eq_or_eq_peer i j with rfl | rfl
  · obtain ⟨sent, hmove, -⟩ := ht.move
    rw [hc.taken] at hj
    have hbefore : hiccups (s.mailbox j) ≠ [] := by
      rw [hbox, hiccups, filterMap_append]
      intro hnil
      exact hj (append_eq_nil_iff.mp hnil).2
    rw [hc.pipe]
    cases hnote : got.bind note with
    | none =>
      rw [hnote] at hmove
      exact hmove.unasked (h.early j hbefore)
    | some n =>
      obtain rfl := got_of_note hnote
      cases n with
      | request => exact absurd (rest_of_term h hbox) hj
      | answer => exact absurd (congrArg hiccups (rest_of_ack h hbox)) hj
  · rw [hc.peer]
    rcases ht.renewed with ⟨-, hnone⟩ | ⟨hopened, -, -⟩
    · apply h.early
      rw [hc.sent, hiccups, filterMap_append] at hj
      change hiccups (s.mailbox i.peer) ++ hiccups l.sent ≠ [] at hj
      rwa [hnone, append_nil] at hj
    · have hto := h.agreed i.peer
      have hopened' : (net s).phase i = .opened := hopened
      rw [Side.peer_peer, hopened'] at hto
      exact (of_underway_opened hto).2

theorem chain_after (j : Side) (p : Nat)
    (hp : (t.pipe j).outpipe = some p) : p ≤ (t.pipe j.peer).inpipe ∧
      hiccups (t.mailbox j) = List.range' (p + 1) ((t.pipe j.peer).inpipe - p) := by
  rcases Side.eq_or_eq_peer i j with rfl | rfl
  · rw [hc.pipe] at hp
    obtain ⟨-, -, -, hle, hrest, -⟩ := outpipe_after h ht hbox hp
    rw [hc.peer, hc.taken]
    exact ⟨hle, hrest⟩
  · rw [hc.peer] at hp
    obtain ⟨hle, hchain⟩ := h.chain i.peer p hp
    rw [Side.peer_peer] at hle hchain ⊢
    have happend : hiccups (t.mailbox i.peer) = hiccups (s.mailbox i.peer) ++ hiccups l.sent := by
      rw [hc.sent]
      exact filterMap_append
    rw [happend, hc.pipe, hchain]
    rcases ht.renewed with ⟨hin, hnone⟩ | ⟨-, hin, hnew⟩
    · rw [hnone, hin, append_nil]
      exact ⟨hle, rfl⟩
    rw [hnew, hin]
    change p ≤ (s.pipe i).inpipe + 1 ∧ List.range' (p + 1) ((s.pipe i).inpipe - p) ++
      [(s.pipe i).inpipe + 1] = List.range' (p + 1) ((s.pipe i).inpipe + 1 - p)
    refine ⟨by omega, ?_⟩
    rw [Nat.sub_add_comm hle, List.range'_1_concat]
    congr 2
    omega

theorem queues_after (j : Side) (p : Nat)
    (hp : (t.pipe j).outpipe = some p) (m : Nat) (hpm : p ≤ m)
    (hm : m ≤ (t.pipe j.peer).inpipe) : (t.queue j.peer m).isSome = true := by
  rcases Side.eq_or_eq_peer i j with rfl | rfl
  · rw [hc.pipe] at hp
    rw [hc.peer] at hm
    obtain ⟨p₀, hp₀, hle, -, -, hlt⟩ := outpipe_after h ht hbox hp
    rw [hc.outbound]
    apply ht.outbound
    · exact h.queues j p₀ hp₀ m (by omega) hm
    · intro hne heq
      have := hlt hne
      have : p₀ = m := some.inj (hp₀.symm.trans heq)
      omega
  · have hpeer := hp
    rw [hc.peer] at hp
    rw [Side.peer_peer] at hm ⊢
    -- The reader is not gone, for its peer has not acknowledged.
    have halive : l.pipe.deleted = false := by
      rw [Bool.eq_false_iff]
      intro hdeleted
      have hgone : (net t).phase i = .gone := by
        change phase (t.pipe i) = .gone
        rw [hc.pipe]
        simp [phase, hdeleted]
      have hto := agreed_after h hc ht hbox i
      rw [hgone] at hto
      have := (silent_after h hc ht i.peer).mpr (of_underway_gone hto).2
      rw [hpeer] at this
      cases this
    have hold := h.queues i.peer p hp m hpm
    rw [Side.peer_peer] at hold
    rw [hc.inbound]
    rw [hc.pipe] at hm
    rcases ht.renewed with ⟨hin, -⟩ | ⟨-, hin, -⟩
    · rw [hin] at hm
      exact ht.inbound halive m (hold hm)
    · by_cases hlast : m = l.pipe.inpipe
      · rw [hlast]
        exact ht.current halive
      refine ht.inbound halive m (hold ?_)
      rw [hin] at hm hlast
      change m ≤ (s.pipe i).inpipe + 1 at hm
      change m ≠ (s.pipe i).inpipe + 1 at hlast
      omega

theorem current_after (j : Side) (hj : (t.pipe j).deleted = false) :
    (t.queue j (t.pipe j).inpipe).isSome = true := by
  rcases Side.eq_or_eq_peer i j with rfl | rfl
  · rw [hc.pipe] at hj ⊢
    rw [hc.inbound]
    exact ht.current hj
  rw [hc.peer] at hj ⊢
  rw [hc.outbound]
  apply ht.outbound
  · exact h.current i.peer hj
  intro hne heq
  obtain ⟨q, hq⟩ := ne_none_iff_exists'.mp hne
  obtain ⟨c, rfl, hcq⟩ := bind_eq_some_iff.mp hq
  have hiccup : c = .hiccup q := by
    cases c <;> simp_all [newPipe]
  subst hiccup
  have heq' : (s.pipe i).outpipe = some (s.pipe i.peer).inpipe := heq
  obtain ⟨hnext, hle, -⟩ := h.next_hiccup heq' hbox
  omega

theorem Safe.committed (halive : (s.pipe i).deleted = false) : Safe t := by
  constructor
  · rw [hc.failed, h.failed, ht.failed]
    rfl
  · exact agreed_after h hc ht hbox
  · exact ordered_after h hc ht hbox
  · exact gone_after h hc ht hbox halive
  · exact silent_after h hc ht
  · exact early_after h hc ht hbox
  · exact chain_after h hc ht hbox
  · exact queues_after h hc ht hbox
  · exact current_after h hc ht hbox

end After

/-- The command at the head of a mailbox is one that its end expects. -/
theorem Safe.expected (h : Safe s) (hbox : s.mailbox i = c :: rest) :
    Expected (phase (s.pipe i)) c := by
  have hto := h.agreed i
  change underway (phase (s.pipe i)) _ = some (notes (s.mailbox i)) at hto
  rw [hbox] at hto
  cases c with
  | hiccup p =>
    have hne : hiccups (s.mailbox i) ≠ [] := by
      rw [hbox]
      exact cons_ne_nil p _
    rcases h.early i hne with hphase | hphase <;> simp [Expected, hphase, Phase.silent]
  | pipeTerm => exact of_underway_request hto
  | pipeTermAck => exact (of_underway_answer hto).2
  | activateRead | activateWrite | pipeHwm => trivial

/-- High-water marks are not sent by an end that has acknowledged: its peer may be
gone already. -/
def HwmsAllowed (s : System) : Input → Prop
  | .call i (.sendHwmsToPeer _ _) =>
    (s.pipe i).state ≠ .termAckSent ∧ (s.pipe i).state ≠ .termReqSent2
  | _ => True

instance (s : System) : (input : Input) → Decidable (HwmsAllowed s input)
  | .call i c => by
    cases c <;> simp only [HwmsAllowed] <;> infer_instance
  | .deliver _ => isTrue trivial

theorem turn_of_call (h : Safe s) {c : Call} (halive : (s.pipe i).deleted = false)
    (hallowed : HwmsAllowed s (.call i c)) : Turn (s.view i) none (perform (s.view i) c) := by
  apply turn_perform (h.live halive) rfl
  rintro inhwm outhwm rfl
  obtain ⟨hack, hreq⟩ := hallowed
  change (phase (s.pipe i)).silent = false
  unfold phase
  rw [halive]
  cases hstate : (s.pipe i).state <;> simp_all [Phase.silent]

theorem Safe.step {input : Input} (h : Safe s) (hallowed : HwmsAllowed s input)
    (hstep : Pipes.step s input = some t) : Safe t := by
  obtain ⟨-, hacts⟩ := step_acts hstep
  cases hacts with
  | @call i c halive hc =>
    exact h.committed hc (turn_of_call h halive hallowed) rfl halive
  | @deliver i c rest halive hbox hc =>
    have hturn : Turn (s.view i) (some c) (process (s.view i) c) :=
      turn_process (h.live halive) rfl (h.expected hbox)
    exact h.committed hc hturn hbox halive
  | late hgone hpending => exact absurd (h.gone _ hgone) hpending

/-- The two ends as `pipepair` creates them. -/
def Initial (s : System) : Prop := ∃ hwms conflate, s = pipepair hwms conflate

theorem Initial.safe (h : Initial s) : Safe s := by
  obtain ⟨hwms, conflate, rfl⟩ := h
  constructor
  · rfl
  · intro i
    rfl
  · intro i
    exact .nil
  · intro i hi
    cases hi
  · intro i
    constructor <;> rintro ⟨⟩
  · intro i hi
    exact absurd rfl hi
  · rintro i p ⟨⟩
    exact ⟨Nat.le_refl 0, rfl⟩
  · rintro i p ⟨⟩ j - hj
    have hzero : j = 0 := Nat.le_zero.mp hj
    subst hzero
    simp [pipepair]
  · intro i _
    simp [pipepair, Pipe.new]

theorem safe_of_reach (h : Reach Initial HwmsAllowed step s) : Safe s := by
  apply h.invariant (fun s hs => Initial.safe hs)
  intro s input t hsafe hallowed hstep
  exact hsafe.step hallowed hstep

/-- As long as no end that has acknowledged sends high-water marks, nothing fails, and
no command is under way to an end that is gone. -/
theorem termination_safe (h : Reach Initial HwmsAllowed step s) :
    s.failed = false ∧ ∀ i, (s.pipe i).deleted = true → s.mailbox i = [] := by
  have hsafe := safe_of_reach h
  exact ⟨hsafe.failed, hsafe.gone⟩

/-- One end terminates, the other one reads the delimiter and answers. -/
def closingRun : List Input :=
  [.call .first (.terminate true), .deliver .second, .deliver .second, .call .second .read,
    .deliver .first, .deliver .second]

theorem closingRun_safe : ∃ s, Reach Initial HwmsAllowed step s ∧
    (s.failed = false ∧ ∀ i, (s.pipe i).deleted = true → s.mailbox i = []) ∧
    (s.pipe .first).deleted = true ∧ (s.pipe .second).deleted = true := by
  refine Reach.of_exec_left (s := pipepair (fun _ => 1000) fun _ => false) HwmsAllowed step
    closingRun ?_ ⟨_, _, rfl⟩ fun s hs => termination_safe hs
  decide +kernel

/-- An end that has acknowledged sends its marks to a peer that is gone. -/
theorem hwms_sent_to_gone : ∃ s, Reach Initial Always step s ∧
    ¬ (s.failed = false ∧ ∀ i, (s.pipe i).deleted = true → s.mailbox i = []) := by
  refine Reach.of_exec (s := pipepair (fun _ => 1000) fun _ => false) Always step
    [.call .first (.terminate true), .call .second .setNodelay, .deliver .second,
      .deliver .first, .call .second (.sendHwmsToPeer 1000 1000)] ?_ ⟨_, _, rfl⟩
  decide +kernel

end Systems

end Uzmq.PipeTermination
