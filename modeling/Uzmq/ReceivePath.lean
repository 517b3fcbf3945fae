import Uzmq.ReceiveDecoding
import Uzmq.Receivers
import Uzmq.SessionFrames

/-!
# The receive path passes every message on exactly once

While the engine is not stopped it holds no message and has decoded all it has received; while it
is stopped it holds the message that was refused, and the pipe is shut. So the pipe is shut only
if the engine is stopped, and `write_activated` finds an engine that can be restarted.
-/

namespace Uzmq.Receivers

open V2Decoder Option List Message Handshake Pipes Sessions Runs

variable {d : Decoder}

section Tracking

variable {s t : Session Engine} {e : Engine}

theorem owed_append (o : Options) {isCtl : Bool} {decoded : List (List UInt8 × Flags)}
    (m : List UInt8 × Flags) (h : ¬ (isCtl = true ∧ decoded = [])) :
    owed o isCtl (decoded ++ [m]) = owed o isCtl decoded ++ [m] := by
  cases isCtl with
  | false => rfl
  | true =>
    cases decoded with
    | nil => exact absurd ⟨rfl, rfl⟩ h
    | cons id later =>
      simp only [owed, if_true, cons_append]
      split <;> rfl

/-- The engine has passed on all it has decoded. -/
structure Idle (s : Session Engine) (e : Engine) : Prop where
  live : V2Decoder.Live e.decoder
  log : ∃ bytes decoded, e.received = bytes ++ e.inbuf ∧
    Continues (V2Decoder.run (newDecoder s.options) bytes) decoded ([], some e.decoder) ∧
    s.accepted.map Msg.content = owed s.options e.isCtl decoded ∧
    (e.processMsg = .processRoutingIdMsg ↔ e.isCtl = true ∧ decoded = [])

/-- The decoder has returned a message that has not been accepted. -/
structure Holding (s : Session Engine) (e : Engine) : Prop where
  live : V2Decoder.Live e.decoder
  next : e.decoder.next = .flagsReady
  got : e.decoder.got = []
  log : ∃ bytes decoded, e.received = bytes ++ e.inbuf ∧
    Continues (V2Decoder.run (newDecoder s.options) bytes)
      (decoded ++ [e.decoder.inProgress.content]) ([], some e.decoder) ∧
    s.accepted.map Msg.content = owed s.options e.isCtl decoded ∧
    (e.processMsg = .processRoutingIdMsg ↔ e.isCtl = true ∧ decoded = [])

/-- Nothing is left to be decoded. -/
def Done (s : Session Engine) (e : Engine) : Prop :=
  Delivered s.options ⟨e.isCtl, e.received, s.accepted⟩

theorem Idle.done (h : Idle s e) (hempty : e.inbuf = []) : Done s e := by
  obtain ⟨bytes, decoded, hreceived, hrun, haccepted, -⟩ := h.log
  rw [hempty, append_nil] at hreceived
  have hmessages := hrun.messages
  simp only [map_nil, append_nil] at hmessages
  change s.accepted.map Msg.content = owed s.options e.isCtl (messages s.options e.received)
  rw [hreceived, messages, hmessages, haccepted]

theorem Idle.more (h : Idle s e) (live : V2Decoder.Live d)
    (hdecode : Continues (V2Decoder.run e.decoder e.inbuf) [] ([], some d)) :
    Idle s { e with decoder := d, inbuf := [] } := by
  obtain ⟨bytes, decoded, hreceived, hrun, haccepted, hfirst⟩ := h.log
  refine ⟨live, bytes ++ e.inbuf, decoded, ?_, ?_, haccepted, hfirst⟩
  · rw [append_nil]
    exact hreceived
  · have hwhole := (hrun.append e.inbuf).trans hdecode
    rwa [append_nil] at hwhole

theorem Idle.malformed {rest : List UInt8} (h : Idle s e)
    (hdecode : Continues (V2Decoder.run e.decoder e.inbuf) [] ([], none)) :
    Done s { e with decoder := d, inbuf := rest } := by
  obtain ⟨bytes, decoded, hreceived, hrun, haccepted, -⟩ := h.log
  have hmessages := ((hrun.append e.inbuf).trans hdecode).messages
  simp only [map_nil, append_nil] at hmessages
  change s.accepted.map Msg.content = owed s.options e.isCtl (messages s.options e.received)
  rw [hreceived, messages, hmessages, haccepted]

theorem Idle.message {bytes rest : List UInt8} (h : Idle s e) (live : V2Decoder.Live d)
    (next : d.next = .flagsReady) (got : d.got = []) (split : e.inbuf = bytes ++ rest)
    (hdecode : Continues (V2Decoder.run e.decoder bytes) [d.inProgress.content] ([], some d)) :
    Holding s { e with decoder := d, inbuf := rest } := by
  obtain ⟨before, decoded, hreceived, hrun, haccepted, hfirst⟩ := h.log
  refine ⟨live, next, got, before ++ bytes, decoded, ?_, ?_, haccepted, hfirst⟩
  · rw [hreceived, split, append_assoc]
  · exact (hrun.append bytes).trans hdecode

theorem Holding.passed {l : List Msg} {m : Msg} (h : Holding s e)
    (hoptions : t.options = s.options) (haccepted : t.accepted = s.accepted ++ l)
    (howed : ∀ decoded, (e.processMsg = .processRoutingIdMsg ↔ e.isCtl = true ∧ decoded = []) →
      owed s.options e.isCtl (decoded ++ [e.decoder.inProgress.content]) =
        owed s.options e.isCtl decoded ++ l.map Msg.content) :
    Idle t { e with
      processMsg := .pushMsgToSession
      decoder := { e.decoder with inProgress := m } } := by
  obtain ⟨bytes, decoded, hreceived, hrun, hbefore, hfirst⟩ := h.log
  refine ⟨h.live, bytes, decoded ++ [e.decoder.inProgress.content], hreceived, ?_, ?_, ?_⟩
  · rw [hoptions]
    refine ⟨hrun.messages, hrun.ending.trans ?_⟩
    exact congrArg some (clear_inProgress h.next m).symm
  · rw [hoptions, howed decoded hfirst, haccepted, map_append, hbefore]
  · simp

end Tracking

variable {u : Session Engine}

section Loop

variable {s t : Session Engine} {e f : Engine}

structure Frame (s : Session Engine) (e : Engine) (t : Session Engine) (f : Engine) : Prop where
  options : t.options = s.options
  active : t.active = s.active
  connecting : t.connecting = s.connecting
  received : f.received = e.received
  isCtl : f.isCtl = e.isCtl
  inputStopped : f.inputStopped = e.inputStopped
  ioError : f.ioError = e.ioError
  pushes : e.processMsg = .pushMsgToSession → f.processMsg = .pushMsgToSession

theorem Frame.refl (s : Session Engine) (e : Engine) : Frame s e s e :=
  ⟨rfl, rfl, rfl, rfl, rfl, rfl, rfl, id⟩

theorem Frame.trans {g : Engine} (h : Frame s e t f) (h' : Frame t f u g) : Frame s e u g :=
  ⟨h'.options.trans h.options, h'.active.trans h.active, h'.connecting.trans h.connecting,
    h'.received.trans h.received, h'.isCtl.trans h.isCtl,
    h'.inputStopped.trans h.inputStopped, h'.ioError.trans h.ioError,
    fun hpush => h'.pushes (h.pushes hpush)⟩

/-- How a message that the decoder has returned is passed on. -/
inductive Passes (s : Session Engine) (e : Engine) : Session Engine × Engine × Result → Prop where
  | ok {t : Session Engine} {f : Engine} (frame : Frame s e t f) (idle : Idle t f)
      (pushes : f.processMsg = .pushMsgToSession) (inbuf : f.inbuf = e.inbuf)
      (inPlace : f.inPlace = e.inPlace) (out : s.Open → t.Open) : Passes s e (t, f, .ok)
  | again {t : Session Engine} {f : Engine} (frame : Frame s e t f) (holding : Holding t f)
      (pushes : f.processMsg = .pushMsgToSession) (inbuf : f.inbuf = e.inbuf)
      (inPlace : f.inPlace = e.inPlace) (shut : t.Shut) : Passes s e (t, f, .again)

theorem passes_push (h : Holding s e) (hpush : e.processMsg = .pushMsgToSession) :
    Passes s e (processDecoded s e) := by
  obtain ⟨hpushed, hleft⟩ := Session.pushed_pushMsg (s := s) e.decoder.inProgress
  unfold processDecoded processMsg
  rw [hpush]
  generalize s.pushMsg e.decoder.inProgress = r at hpushed hleft ⊢
  obtain ⟨t, m, ok⟩ := r
  cases ok with
  | true =>
    obtain ⟨haccepted, hopen⟩ := hpushed.taken rfl
    have hidle := h.passed (m := m) hpushed.options haccepted (by
      intro decoded hfirst
      exact owed_append _ _ fun hctl => absurd (hfirst.mpr hctl) (by rw [hpush]; nofun))
    rw [← hpush] at hidle
    exact .ok ⟨hpushed.options, hpushed.active, hpushed.connecting, rfl, rfl, rfl, rfl, id⟩ hidle
      hpush rfl rfl hopen
  | false =>
    obtain ⟨haccepted, hshut⟩ := hpushed.refused rfl
    obtain rfl : m = e.decoder.inProgress := hleft rfl
    have hholding : Holding t e := by
      obtain ⟨bytes, decoded, hreceived, hrun, hbefore, hfirst⟩ := h.log
      refine ⟨h.live, h.next, h.got, bytes, decoded, hreceived, ?_, ?_, hfirst⟩
      · rw [hpushed.options]
        exact hrun
      · rw [hpushed.options, haccepted]
        exact hbefore
    exact .again ⟨hpushed.options, hpushed.active, hpushed.connecting, rfl, rfl, rfl, rfl, id⟩
      hholding hpush rfl rfl hshut

/-- The routing id is dropped, or there is room for it. -/
theorem passes_routingId (h : Holding s e) (hrouting : e.processMsg = .processRoutingIdMsg)
    (hroom : s.options.recvRoutingId = true → e.decoder.inProgress.flags.command = false →
      s.canWrite = true) : Passes s e (processDecoded s e) := by
  unfold processDecoded processMsg
  rw [hrouting]
  dsimp only
  split
  · rename_i hrecv
    obtain ⟨hpushed, -⟩ := Session.pushed_pushMsg (s := s) (setRoutingId e.decoder.inProgress)
    have hok : (s.pushMsg (setRoutingId e.decoder.inProgress)).2.2 = true :=
      Session.pushMsg_of_canWrite (hroom hrecv)
    generalize s.pushMsg (setRoutingId e.decoder.inProgress) = r at hpushed hok ⊢
    obtain ⟨t, m, ok⟩ := r
    obtain rfl : ok = true := hok
    obtain ⟨haccepted, hopen⟩ := hpushed.taken rfl
    have hidle := h.passed (m := m) hpushed.options haccepted (by
      intro decoded hfirst
      obtain ⟨hctl, rfl⟩ := hfirst.mp hrouting
      simp [owed, hctl, hrecv, Msg.content, setRoutingId])
    exact .ok
      ⟨hpushed.options, hpushed.active, hpushed.connecting, rfl, rfl, rfl, rfl, fun _ => rfl⟩
      hidle rfl rfl rfl hopen
  · rename_i hrecv
    have hidle := h.passed (t := s) (l := []) (m := {}) rfl (append_nil _).symm (by
      intro decoded hfirst
      obtain ⟨hctl, rfl⟩ := hfirst.mp hrouting
      simp [owed, hctl, hrecv])
    exact .ok ⟨rfl, rfl, rfl, rfl, rfl, rfl, rfl, fun _ => rfl⟩ hidle rfl rfl rfl id

theorem Holding.passes (h : Holding s e)
    (hroom : e.processMsg = .processRoutingIdMsg → s.options.recvRoutingId = true →
      e.decoder.inProgress.flags.command = false → s.canWrite = true) :
    Passes s e (processDecoded s e) := by
  cases hprocess : e.processMsg with
  | pushMsgToSession => exact passes_push h hprocess
  | processRoutingIdMsg => exact passes_routingId h hprocess (hroom hprocess)

/-- How the loop ends. -/
inductive Outcome (s : Session Engine) (e : Engine) : Session Engine × Engine × Result → Prop where
  | ok {t : Session Engine} {f : Engine} (frame : Frame s e t f) (idle : Idle t f)
      (inbuf : f.inbuf = []) (out : t.Open) : Outcome s e (t, f, .ok)
  | again {t : Session Engine} {f : Engine} (frame : Frame s e t f) (holding : Holding t f)
      (pushes : f.processMsg = .pushMsgToSession) (place : f.inPlace = true → f.inbuf = [])
      (shut : t.Shut) : Outcome s e (t, f, .again)
  | malformed {t : Session Engine} {f : Engine} (frame : Frame s e t f) (done : Done t f)
      (out : t.Open) : Outcome s e (t, f, .malformed)

theorem Outcome.after {r : Session Engine × Engine × Result} (hframe : Frame s e t f)
    (h : Outcome t f r) : Outcome s e r := by
  cases h with
  | ok frame idle inbuf out => exact .ok (hframe.trans frame) idle inbuf out
  | again frame holding pushes place shut =>
    exact .again (hframe.trans frame) holding pushes place shut
  | malformed frame done out => exact .malformed (hframe.trans frame) done out

/-- There is room for a routing id that arrives. -/
def Room (s : Session Engine) (e : Engine) : Prop :=
  e.processMsg = .processRoutingIdMsg → s.options.recvRoutingId = true →
    ∀ m later, (V2Decoder.run e.decoder e.inbuf).1 = m :: later → m.flags.command = false →
      s.canWrite = true

theorem inputLoop_outcome (fuel : Nat) (hfuel : e.inbuf.length < fuel) (h : Idle s e)
    (hplace : e.inPlace = true → e.inbuf.length ≤ e.decoder.toRead) (hopen : s.Open)
    (hroom : Room s e) : Outcome s e (inputLoop fuel s e) := by
  induction fuel generalizing s e with
  | zero => omega
  | succ fuel ih =>
    by_cases hempty : e.inbuf = []
    · have hloop : inputLoop (fuel + 1) s e = (s, e, .ok) := by simp [inputLoop, hempty]
      rw [hloop]
      exact .ok (Frame.refl s e) h hempty hopen
    have hcond : ¬ e.inbuf.isEmpty = true := by simpa using hempty
    have hdecodes := decodes_decode h.live hempty hplace
    have hrest : ∀ rc d rest,
        decode true e.decoder e.inbuf = some (rc, d, rest) → rest = [] :=
      fun _ _ _ => decode_inPlace_rest
    unfold inputLoop
    rw [if_neg hcond]
    cases hdecode : decode e.inPlace e.decoder e.inbuf with
    | none =>
      rw [hdecode] at hdecodes
      cases hdecodes
    | some r =>
      rw [hdecode] at hdecodes
      cases hdecodes with
      | more live hrun =>
        exact .ok ⟨rfl, rfl, rfl, rfl, rfl, rfl, rfl, id⟩ (h.more live hrun) rfl hopen
      | malformed hrun =>
        exact .malformed ⟨rfl, rfl, rfl, rfl, rfl, rfl, rfl, id⟩ (h.malformed hrun) hopen
      | @message d bytes rest live next got split shorter hrun =>
        have hpasses := (h.message live next got split hrun).passes (by
          intro hprocess hrecv hcommand
          obtain ⟨first, later, hfirst, hcontent⟩ := hrun.first rest
          rw [← split] at hfirst
          have hflags : first.flags = d.inProgress.flags := congrArg Prod.snd hcontent
          exact hroom hprocess hrecv first later hfirst (by rw [hflags]; exact hcommand))
        have hplace' : e.inPlace = true → rest = [] := by
          intro hin
          rw [hin] at hdecode
          exact hrest _ d rest hdecode
        dsimp only
        generalize processDecoded s { e with decoder := d, inbuf := rest } = r at hpasses ⊢
        cases hpasses with
        | again frame holding pushes inbuf inPlace shut =>
          refine .again { frame with } holding pushes (fun hin => ?_) shut
          rw [inbuf]
          exact hplace' (inPlace ▸ hin)
        | @ok t f frame idle pushes inbuf inPlace out =>
          refine Outcome.after { frame with } (ih ?_ idle ?_ (out hopen) ?_)
          · rw [inbuf]
            change rest.length < fuel
            omega
          · intro hin
            have hnil : f.inbuf = [] := inbuf.trans (hplace' (inPlace ▸ hin))
            simp [hnil]
          · intro hrouting
            rw [pushes] at hrouting
            cases hrouting

end Loop

variable {r : Read} {failing : Option Reason} {e : Engine}

section Invariant

/-- The engine and the pipe fit together. -/
inductive Engaged (s : Session Engine) : Option Reason → Prop where
  | vacant (engine : s.engine = none) (out : s.connecting = true → s.Open) : Engaged s none
  | running {e : Engine} (engine : s.engine = some e) (connecting : s.connecting = false)
      (inputStopped : e.inputStopped = false) (inbuf : e.inbuf = []) (idle : Idle s e)
      (out : s.Open) : Engaged s none
  | stopped {e : Engine} (engine : s.engine = some e) (connecting : s.connecting = false)
      (inputStopped : e.inputStopped = true) (pushes : e.processMsg = .pushMsgToSession)
      (place : e.inPlace = true → e.inbuf = []) (holding : Holding s e) (shut : s.Shut) :
      Engaged s none
  | failing {e : Engine} {reason : Reason} (engine : s.engine = some e)
      (connecting : s.connecting = false) (done : Done s e) (out : s.Open) :
      Engaged s (some reason)

structure Inv (s : State) : Prop where
  fault : s.fault = none
  engaged : Engaged s.session s.failing
  past : ∀ r ∈ s.past, Delivered s.session.options r

variable {s t : Session Engine} {e : Engine}

theorem Idle.congr (h : Idle s e) (hoptions : t.options = s.options)
    (haccepted : t.accepted = s.accepted) : Idle t e := by
  refine ⟨h.live, ?_⟩
  rw [hoptions, haccepted]
  exact h.log

theorem Holding.congr (h : Holding s e) (hoptions : t.options = s.options)
    (haccepted : t.accepted = s.accepted) : Holding t e := by
  refine { h with log := ?_ }
  rw [hoptions, haccepted]
  exact h.log

theorem Done.congr (h : Done s e) (hoptions : t.options = s.options)
    (haccepted : t.accepted = s.accepted) : Done t e := by
  unfold Done
  rw [hoptions, haccepted]
  exact h

theorem Engaged.delivery (h : Engaged s none) (hd : s.Delivery t false) : Engaged t none := by
  have hgone : s.connecting = false → t.engine = none → Engaged t none := by
    intro hconnecting hnone
    refine .vacant hnone fun hc => ?_
    rw [hd.connecting, hconnecting] at hc
    cases hc
  cases h with
  | vacant engine out =>
    have hnone : t.engine = none := by
      rcases hd.engine with hsame | hnone
      · exact hsame.trans engine
      · exact hnone
    refine .vacant hnone fun hconnecting => ?_
    rw [hd.connecting] at hconnecting
    exact hd.open' (out hconnecting)
  | running engine connecting inputStopped inbuf idle out =>
    rcases hd.engine with hsame | hnone
    · exact .running (hsame.trans engine) (hd.connecting.trans connecting) inputStopped inbuf
        (idle.congr hd.options hd.accepted) (hd.open' out)
    · exact hgone connecting hnone
  | stopped engine connecting inputStopped pushes place holding shut =>
    rcases hd.engine with hsame | hnone
    · have hsome : t.engine.isSome = true := by
        rw [hsame, engine]
        rfl
      exact .stopped (hsame.trans engine) (hd.connecting.trans connecting) inputStopped pushes place
        (holding.congr hd.options hd.accepted) (hd.shut rfl hsome shut)
    · exact hgone connecting hnone

theorem Engaged.keeps (h : Engaged s failing) (hk : s.Keeps t) : Engaged t failing := by
  cases failing with
  | none => exact h.delivery hk.delivery
  | some reason =>
    cases h with
    | failing engine connecting done out =>
      exact .failing (hk.engine.trans engine) (hk.connecting.trans connecting)
        (done.congr hk.options hk.accepted) (hk.toEases.open out)

/-- An engine that may be called by the poller. -/
structure Ready (u : Session Engine) (e : Engine) (r : Read) : Prop where
  connecting : u.connecting = false
  inbuf : e.inbuf = []
  idle : Idle u e
  out : u.Open
  room : ∀ data, r = .bytes data → Room u (e.read data)

theorem Idle.read (h : Idle s e) (hempty : e.inbuf = []) (data : List UInt8) :
    Idle s (e.read data) := by
  obtain ⟨bytes, decoded, hreceived, hlog⟩ := h.log
  refine ⟨h.live, bytes, decoded, ?_, hlog⟩
  change e.received ++ data = bytes ++ data
  rw [hreceived, hempty, append_nil]

theorem Holding.waits (h : Holding s e) (hpush : e.processMsg = .pushMsgToSession)
    (hshut : s.Shut) : Waits s e := by
  obtain ⟨bytes, decoded, hreceived, hrun, haccepted, hfirst⟩ := h.log
  refine ⟨⟨bytes, hreceived, ?_⟩, h.next, h.got, hshut⟩
  have hmessages := hrun.messages
  simp only [map_nil, append_nil] at hmessages
  have howed := owed_append s.options e.decoder.inProgress.content
    (fun hctl => absurd (hfirst.mpr hctl) (by rw [hpush]; nofun))
  rw [messages, hmessages, howed, ← haccepted, map_append]
  rfl

theorem room_of_due (h : routingIdDue u.options e r = true → u.canWrite = true) :
    ∀ data, r = .bytes data → Room u (e.read data) := by
  rintro data rfl hrouting hrecv m later hrun hcommand
  have hrouting' : e.processMsg = .processRoutingIdMsg := hrouting
  have hrun' : (run e.decoder data).1 = m :: later := hrun
  exact h (by simp [routingIdDue, hrouting', hrecv, hrun', hcommand])

theorem idle_new {o : Options} (hoptions : u.options = o) (haccepted : u.accepted = [])
    (isCtl : Bool) : Idle u (Engine.new o isCtl) := by
  refine ⟨new_live _ _, [], [], rfl, ?_, ?_, ?_⟩
  · rw [hoptions]
    exact Continues.refl _
  · rw [haccepted]
    cases isCtl <;> rfl
  · cases isCtl <;> simp [Engine.new]

/-- The last message for a raw socket does no harm if it is accepted or nobody pushes after it. -/
theorem notifyRaw_spec (u : Session Engine) (e : Engine) (reason : Reason) (hopen : u.Open)
    (hfits : notifiesOn u e reason = true → u.full = false) :
    ∃ v, notifyRaw u e = (v, .ok) ∧ v.options = u.options ∧ v.active = u.active ∧
      v.connecting = u.connecting ∧ (u.keepsPipe reason = true → v.Open) := by
  unfold notifyRaw
  split
  · rename_i hraw
    obtain ⟨hsocket, hnotify⟩ := Bool.and_eq_true_iff.mp hraw
    unfold processMsg
    cases hprocess : e.processMsg with
    | processRoutingIdMsg =>
      rw [if_neg (by simp [u.options.raw hsocket])]
      exact ⟨u, rfl, rfl, rfl, rfl, fun _ => hopen⟩
    | pushMsgToSession =>
      obtain ⟨hpushed, -⟩ := Session.pushed_pushMsg (s := u) {}
      have hpush : u.keepsPipe reason = true → (u.pushMsg {}).1.Open := by
        intro hkeeps
        apply Session.open_pushMsg {} hopen
        apply hfits
        simp [notifiesOn, hsocket, hnotify, hprocess, hkeeps]
      generalize u.pushMsg {} = p at hpushed hpush ⊢
      obtain ⟨v, m, ok⟩ := p
      cases ok with
      | true | false => exact ⟨v, rfl, hpushed.options, hpushed.active, hpushed.connecting, hpush⟩
  · exact ⟨u, rfl, rfl, rfl, rfl, fun _ => hopen⟩

variable {s t : State}

theorem Inv.of_engaged (h : Inv s) (hoptions : u.options = s.session.options)
    (hengaged : Engaged u failing) : Inv { s with session := u, failing := failing } := by
  refine ⟨h.fault, hengaged, ?_⟩
  intro r hr
  rw [hoptions]
  exact h.past r hr

theorem Inv.session (h : Inv s) (hoptions : u.options = s.session.options)
    (hengaged : Engaged u s.failing) : Inv { s with session := u } :=
  h.of_engaged hoptions hengaged

theorem Inv.set (h : Inv s) (hoptions : u.options = s.session.options)
    (hengaged : Engaged { u with engine := some e } s.failing) : Inv (s.set u e) :=
  Inv.of_engaged (u := { u with engine := some e }) h hoptions hengaged

theorem Inv.fails (reason : Reason) (h : Inv s)
    (hoptions : u.options = s.session.options) (hconnecting : u.connecting = false)
    (hdone : Done u e) (hopen : u.Open) : Inv ((s.set u e).fail reason) :=
  Inv.of_engaged (s := s) (u := { u with engine := some e }) h hoptions
    (.failing rfl hconnecting hdone hopen)

theorem Inv.setFlushed (h : Inv s) (hoptions : u.options = s.session.options)
    (hengaged : Engaged { u with engine := some e } s.failing) : Inv (s.setFlushed u e) := by
  have hflush : Session.Keeps { u with engine := some e } { u.flush with engine := some e } := by
    have hk : u.Keeps u.flush := Session.keeps_flush
    exact ⟨{ hk.toEases with }, rfl, hk.connecting⟩
  exact h.set (hflush.options.trans hoptions) (hengaged.keeps hflush)

section
variable (h : Inv s) (hs : s.failing = none) (hoptions : u.options = s.session.options)
include h hs hoptions

theorem Inv.finishInput {r : Session Engine × Engine × Result} (hconnecting : u.connecting = false)
    (hstopped : e.inputStopped = false) (hout : Outcome u e r) : Inv (finishInput s r) := by
  cases hout with
  | ok frame idle inbuf out =>
    apply h.setFlushed (frame.options.trans hoptions)
    rw [hs]
    exact .running rfl (frame.connecting.trans hconnecting) (frame.inputStopped.trans hstopped)
      inbuf (idle.congr rfl rfl) out
  | again frame holding pushes place shut =>
    apply h.setFlushed (frame.options.trans hoptions)
    rw [hs]
    exact .stopped rfl (frame.connecting.trans hconnecting) rfl pushes place { holding with } shut
  | malformed frame done out =>
    exact h.fails _ (frame.options.trans hoptions) (frame.connecting.trans hconnecting) done out

theorem Inv.inEvent (hstopped : e.inputStopped = false) (hready : Ready u e r)
    (hstep : inEvent s u e r = some t) : Inv t := by
  have hinput : ¬ e.inputStopped = true := by simp [hstopped]
  have hbuffer : ¬ (!e.inbuf.isEmpty) = true := by simp [hready.inbuf]
  have hfail : Inv ((s.set u e).fail .connectionError) :=
    h.fails _ hoptions hready.connecting (hready.idle.done hready.inbuf) hready.out
  unfold Receivers.inEvent at hstep
  rw [if_neg hinput, if_neg hbuffer] at hstep
  cases r with
  | closed | failed =>
    cases hstep
    exact hfail
  | again =>
    cases hstep
    apply h.set hoptions
    rw [hs]
    exact .running rfl hready.connecting hstopped hready.inbuf (hready.idle.congr rfl rfl)
      hready.out
  | bytes data =>
    obtain ⟨⟨hpos, hle⟩, ⟨⟩⟩ := ite_none_right_eq_some.mp hstep
    apply h.finishInput hs hoptions hready.connecting (e := e.read data) hstopped
    refine inputLoop_outcome _ (Nat.lt_succ_self data.length)
      (hready.idle.read hready.inbuf data) ?_ hready.out (hready.room data rfl)
    intro hplace
    have hplace' : e.decoder.inPlace = true := hplace
    have hle' : data.length ≤ e.decoder.toRead := by
      simpa [V2Decoder.Decoder.offered, hplace'] using hle
    exact hle'

theorem Inv.finishRestart {result : Session Engine × Engine × Result}
    (hconnecting : u.connecting = false) (hstopped : e.inputStopped = true)
    (hpush : e.processMsg = .pushMsgToSession) (hout : Outcome u e result)
    (hstep : finishRestart s r result = some t) : Inv t := by
  cases hout with
  | again frame holding pushes place shut =>
    cases hstep
    apply h.setFlushed (frame.options.trans hoptions)
    rw [hs]
    exact .stopped rfl (frame.connecting.trans hconnecting) (frame.inputStopped.trans hstopped)
      pushes place (holding.congr rfl rfl) shut
  | malformed frame done out =>
    cases hstep
    exact h.fails _ (frame.options.trans hoptions) (frame.connecting.trans hconnecting) done out
  | @ok v f frame idle inbuf out =>
    unfold Receivers.finishRestart at hstep
    dsimp only at hstep
    split at hstep
    · cases hstep
      exact h.fails _ (frame.options.trans hoptions) (frame.connecting.trans hconnecting)
        (idle.done inbuf) out
    have hflush : v.Keeps v.flush := Session.keeps_flush
    have hidle : Idle v.flush { f with inputStopped := false } := by
      have hflushed := idle.congr hflush.options hflush.accepted
      exact ⟨hflushed.live, hflushed.log⟩
    have hready : Ready v.flush { f with inputStopped := false } r := by
      refine ⟨(hflush.connecting.trans frame.connecting).trans hconnecting, inbuf, hidle,
        hflush.toEases.open out, ?_⟩
      intro data _ hrouting
      cases (frame.pushes hpush).symm.trans hrouting
    exact h.inEvent hs ((hflush.options.trans frame.options).trans hoptions) rfl hready hstep

theorem Inv.restartInput (hconnecting : u.connecting = false)
    (hstopped : e.inputStopped = true) (hpush : e.processMsg = .pushMsgToSession)
    (hplace : e.inPlace = true → e.inbuf = []) (hholding : Holding u e) (hopen : u.Open)
    (hstep : restartInput s u e r = some t) : Inv t := by
  unfold Receivers.restartInput at hstep
  rw [if_neg (by simp [hstopped])] at hstep
  have hpasses := passes_push hholding hpush
  generalize processDecoded u e = result at hpasses hstep
  cases hpasses with
  | again frame holding pushes inbuf inPlace shut =>
    cases hstep
    apply h.setFlushed (frame.options.trans hoptions)
    rw [hs]
    refine .stopped rfl (frame.connecting.trans hconnecting) (frame.inputStopped.trans hstopped)
      pushes (fun hin => ?_) (holding.congr rfl rfl) shut
    rw [inbuf]
    exact hplace (inPlace ▸ hin)
  | @ok v f frame idle pushes inbuf inPlace out =>
    refine h.finishRestart hs (frame.options.trans hoptions) (frame.connecting.trans hconnecting)
      (frame.inputStopped.trans hstopped) pushes ?_ hstep
    refine inputLoop_outcome _ (Nat.lt_succ_self _) idle ?_ (out hopen) ?_
    · intro hin
      have hnil : f.inbuf = [] := inbuf.trans (hplace (inPlace ▸ hin))
      simp [hnil]
    · intro hrouting
      cases pushes.symm.trans hrouting

end

section
variable (h : Inv s)
include h

section
variable (hs : s.failing = none)
include hs

theorem Inv.pollStep (hfits : Fits s (.inEvent r)) (hstep : pollStep s r = some t) : Inv t := by
  unfold Receivers.pollStep at hstep
  split at hstep
  · cases hstep
  rename_i e he
  obtain ⟨-, hstep⟩ := ite_none_left_eq_some.mp hstep
  have hengaged := h.engaged
  rw [hs] at hengaged
  cases hengaged with
  | vacant engine out => cases he.symm.trans engine
  | running engine connecting inputStopped inbuf idle out =>
    cases he.symm.trans engine
    refine h.inEvent hs rfl inputStopped ⟨connecting, inbuf, idle, out, room_of_due ?_⟩ hstep
    intro hdue
    simpa [Fits, fits, he, hdue] using hfits
  | stopped engine connecting inputStopped pushes place holding shut =>
    cases he.symm.trans engine
    unfold Receivers.inEvent at hstep
    rw [if_pos inputStopped] at hstep
    cases hstep
    apply h.set rfl
    rw [hs]
    exact .stopped rfl connecting inputStopped pushes place { holding with } shut

theorem Inv.attachStep {isCtl : Bool}
    (hfits : Fits s (.attach isCtl r)) (hstep : attachStep s isCtl r = some t) : Inv t := by
  obtain ⟨hconnecting, hstep⟩ := ite_none_right_eq_some.mp hstep
  have hengaged := h.engaged
  rw [hs] at hengaged
  cases hengaged with
  | running _ connecting | stopped _ connecting => cases hconnecting.symm.trans connecting
  | vacant engine out =>
    obtain ⟨hoptions, hengine⟩ := Session.makePipe_frame (s := s.session)
    have hvacant : ¬ s.session.makePipe.engine.isSome = true := by simp [hengine, engine]
    have hattach : s.session.processAttach (Engine.new s.session.options isCtl) =
        { s.session.makePipe with
          engine := some (Engine.new s.session.options isCtl)
          connecting := false
          accepted := [] } := by
      rw [Session.processAttach, if_neg hvacant]
    have hready : Ready (s.session.processAttach (Engine.new s.session.options isCtl))
        (Engine.new s.session.options isCtl) r := by
      rw [hattach]
      refine ⟨rfl, rfl, ?_, Session.open_makePipe (out hconnecting), room_of_due fun hdue => ?_⟩
      · apply idle_new
        · exact hoptions
        · rfl
      · rw [hoptions] at hdue
        apply Session.canWrite_makePipe
        simpa [Fits, fits, hdue] using hfits
    have hsame : (s.session.processAttach (Engine.new s.session.options isCtl)).options =
        s.session.options := by
      rw [hattach]
      exact hoptions
    exact h.inEvent hs hsame rfl hready hstep

theorem Inv.deliverStep {k : Nat} (hstep : deliverStep s k r = some t) : Inv t := by
  have hengaged := h.engaged
  rw [hs] at hengaged
  unfold Receivers.deliverStep at hstep
  split at hstep
  · cases hstep
  · rename_i u hdeliver
    have hd := Session.delivery_deliver hdeliver
    cases hstep
    apply h.session hd.options
    rw [hs]
    exact hengaged.delivery hd
  · rename_i u hdeliver
    have hd := Session.delivery_deliver hdeliver
    obtain ⟨hsame, hshut, hopen⟩ := hd.woken rfl
    split at hstep
    · rename_i hnone
      cases hstep
      apply h.session hd.options
      rw [hs]
      exact .vacant hnone fun _ => hopen
    · rename_i e he
      cases hengaged with
      | vacant engine out => cases he.symm.trans (hsame.trans engine)
      | running engine connecting inputStopped inbuf idle out => exact absurd out hshut
      | stopped engine connecting inputStopped pushes place holding shut =>
        cases he.symm.trans (hsame.trans engine)
        exact h.restartInput hs hd.options (hd.connecting.trans connecting) inputStopped pushes
          place (holding.congr hd.options hd.accepted) hopen hstep

omit hs in
theorem Inv.error {reason : Reason} (hs : s.failing = some reason) (he : s.session.engine = some e)
    (hfits : Fits s .error) : Inv (error s e reason) := by
  have hengaged := h.engaged
  rw [hs] at hengaged
  cases hengaged with
  | failing engine connecting done out =>
    cases he.symm.trans engine
    obtain ⟨v, hnotify, hoptions, hactive, hconnecting, hopen⟩ :=
      notifyRaw_spec s.session e reason out (by
        intro hdue
        simpa [Fits, fits, hs, he, hdue] using hfits)
    have hflush : v.Keeps v.flush := Session.keeps_flush
    have hunplugged := Session.unplugged_engineError (s := v.flush) reason
    have hend : (v.flush.engineError reason).options = s.session.options :=
      (hunplugged.options.trans hflush.options).trans hoptions
    unfold Receivers.error
    rw [hnotify]
    refine ⟨h.fault, .vacant hunplugged.engine ?_, ?_⟩
    · intro hconnects
      rcases hunplugged.connecting hconnects with hbefore | hkeeps | hpipe
      · rw [hflush.connecting, hconnecting, connecting] at hbefore
        cases hbefore
      · apply hunplugged.toEases.open
        apply hflush.toEases.open
        apply hopen
        rwa [Session.keepsPipe, hflush.active, hflush.options, hactive, hoptions] at hkeeps
      · intro k hk
        cases hpipe.symm.trans hk
    · rw [hend]
      exact forall_mem_append.mpr ⟨h.past, forall_mem_singleton.mpr done⟩

theorem Inv.ioStep {input : Input} (hfits : Fits s input) (hstep : ioStep s input = some t) :
    Inv t := by
  have hsession : ∀ u, s.session.Keeps u → Inv { s with session := u } := by
    intro u hu
    exact h.session hu.options (h.engaged.keeps hu)
  cases input with
  | attach isCtl r => exact h.attachStep hs hfits hstep
  | inEvent r => exact h.pollStep hs hfits hstep
  | error | socketCall | socketDeliver => cases hstep
  | pull =>
    obtain ⟨-, ⟨⟩⟩ := ite_none_right_eq_some.mp hstep
    exact hsession _ Session.keeps_pullMsg
  | processTerm linger =>
    obtain ⟨-, ⟨⟩⟩ := ite_none_left_eq_some.mp hstep
    exact hsession _ (Session.keeps_processTerm linger)
  | timerEvent =>
    obtain ⟨-, ⟨⟩⟩ := ite_none_right_eq_some.mp hstep
    exact hsession _ Session.keeps_timerEvent
  | deliver k r =>
    obtain ⟨-, hstep⟩ := ite_none_left_eq_some.mp hstep
    exact h.deliverStep hs hstep

end

theorem Inv.step {input : Input} (hfits : Fits s input) (hstep : step s input = some t) :
    Inv t := by
  have hsocket : ∀ {k : Nat} {i : Pipes.Input},
      (∃ c, i = .call .second c) ∨ i = .deliver .second →
      (s.session.socketStep k i).bind (sessionStep s) = some t → Inv t := by
    intro k i hi hbind
    obtain ⟨u, hu, ⟨⟩⟩ := bind_eq_some_iff.mp hbind
    have hk := Session.keeps_socketStep hi hu
    exact h.session hk.options (h.engaged.keeps hk)
  have hio : ∀ i, Fits s i →
      (if s.failing.isSome then none else Receivers.ioStep s i) = some t → Inv t := by
    intro i hi hif
    obtain ⟨hnone, hstep⟩ := ite_none_left_eq_some.mp hif
    exact h.ioStep (by simpa using hnone) hi hstep
  obtain ⟨-, hstep⟩ := ite_none_left_eq_some.mp hstep
  cases input with
  | socketCall k c =>
    cases c with
    | hiccup => cases hstep
    | _ => exact hsocket (.inl ⟨_, rfl⟩) hstep
  | socketDeliver k => exact hsocket (.inr rfl) hstep
  | error =>
    dsimp only at hstep
    split at hstep
    · rename_i reason e hs he
      cases hstep
      exact h.error hs he hfits
    · cases hstep
  | attach | inEvent | pull | processTerm | timerEvent | deliver => exact hio _ hfits hstep

end

theorem Initial.inv (h : Initial s) : Inv s := by
  obtain ⟨o, active, attached, rfl⟩ := h
  refine ⟨rfl, .vacant rfl fun _ => ?_, nofun⟩
  intro k _ _
  rfl

theorem inv_of_reach (h : Reach Initial Fits step s) : Inv s :=
  h.invariant (fun _ hs => hs.inv) fun _ _ _ hs hfits hstep => hs.step hfits hstep

end Invariant

section Results

/-- Every message that is received before an error is accepted by the session once and in its
order. An engine that is stopped has one message that was refused, and has decoded nothing after
it. Whenever `restart_input` is called, input is stopped. -/
theorem received_once {s : State} (h : Reach Initial Fits step s) :
    s.fault = none ∧ (∀ r ∈ s.past, Delivered s.session.options r) ∧
      ∀ e, s.session.engine = some e →
        if e.inputStopped = true ∧ s.failing = none then Waits s.session e
        else Delivered s.session.options { e with accepted := s.session.accepted } := by
  have hinv := inv_of_reach h
  refine ⟨hinv.fault, hinv.past, ?_⟩
  intro e he
  have hengaged := hinv.engaged
  generalize s.failing = failing at hengaged ⊢
  cases hengaged with
  | vacant engine out => cases he.symm.trans engine
  | running engine connecting inputStopped inbuf idle out =>
    cases he.symm.trans engine
    rw [if_neg (by simp [inputStopped])]
    exact idle.done inbuf
  | stopped engine connecting inputStopped pushes place holding shut =>
    cases he.symm.trans engine
    rw [if_pos ⟨inputStopped, rfl⟩]
    exact holding.waits pushes shut
  | failing engine connecting done out =>
    cases he.symm.trans engine
    rw [if_neg (by simp)]
    exact done

/-- A socket that connects, with room for one message. -/
def oneMessage (raw : Bool) : Options where
  rawSocket := raw
  rawNotify := true
  recvRoutingId := false
  immediate := false
  reconnects := true
  subscriber := false
  conflate := false
  rcvhwm := 1
  sndhwm := 1
  maxmsgsize := -1
  raw := fun _ => rfl

/-- Two messages arrive together, and the second one has to wait until the first one is read. -/
def refusedRun : List Input :=
  [.attach false .again, .inEvent (.bytes [0, 0, 1, 65, 0, 0, 1, 66]), .inEvent .again,
    .socketDeliver 0, .socketCall 0 .read, .deliver 0 .closed, .error]

theorem refusedRun_received : ∃ s, Reach Initial Fits step s ∧
    (s.fault = none ∧ (∀ r ∈ s.past, Delivered s.session.options r) ∧
      ∀ e, s.session.engine = some e →
        if e.inputStopped = true ∧ s.failing = none then Waits s.session e
        else Delivered s.session.options { e with accepted := s.session.accepted }) ∧
    s.past.map (fun r => r.accepted.map Msg.data) = [[[65], [66]]] := by
  refine Reach.of_exec_left (s := { session := Session.new (oneMessage false) true true }) Fits
    step refusedRun ?_ ⟨_, _, _, rfl⟩ fun s hs => received_once hs
  decide +kernel

/-- A message fills the pipe, and the peer closes the connection. The empty message that tells a
raw socket so is refused, the session connects again, and the socket reads: the new engine is
restarted although it has not stopped. -/
def notifiedRun : List Input :=
  [.attach false .again, .inEvent (.bytes [0, 0, 1, 65]), .inEvent .closed, .error,
    .attach false .again, .socketCall 0 .read, .deliver 0 .again]

theorem restarted_unstopped : ∃ s, Reach Initial Always step s ∧ s.fault = some .inputStopped := by
  refine Reach.of_exec (s := { session := Session.new (oneMessage true) true true }) Always step
    notifiedRun ?_ ⟨_, _, _, rfl⟩
  decide +kernel

end Results

end Uzmq.Receivers
