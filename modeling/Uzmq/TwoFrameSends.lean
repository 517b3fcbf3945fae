import Uzmq.Message

/-!
# Sockets that send two frames

`dgram_t` and `stream_t` send an address and data. `more_out` says which of the two comes next,
and both sockets set it for frames that go nowhere.
-/

namespace Uzmq.TwoFrameSends

open Message

section Dgram

inductive Errno where
  | eagain
  | einval
  | other
  deriving DecidableEq, Inhabited

inductive Sent where
  | ok
  | failed (errno : Errno)
  deriving DecidableEq

/-- The message variable of a caller, which `close` leaves invalid. -/
structure Frame extends Msg where
  valid : Bool := true
  deriving DecidableEq

/-- With the frames written to the pipe, if there is one. -/
structure Dgram where
  moreOut : Bool := false
  pipe : Option (List Frame) := some []
  deriving DecidableEq

namespace Dgram

def write (s : Dgram) (frames : List Frame) (m : Frame) (room : Bool) : Dgram × Frame × Sent :=
  if room then ({ s with pipe := some (frames ++ [m]) }, {}, .ok) else (s, m, .failed .eagain)

/-- The socket, the caller's message and the outcome; `errno` has a value when the call is made.
There is no socket after a failed assertion. -/
def xsend (s : Dgram) (m : Frame) (room : Bool) (errno : Errno) : Option (Dgram × Frame × Sent) :=
  match s.pipe with
  | none =>
    -- `close` succeeds for a valid message only, and nothing sets `errno`
    if m.valid then some (s, { m with valid := false }, .failed errno) else none
  | some frames =>
    if s.moreOut = false then
      if m.flags.more = false then some (s, m, .failed .einval)
      else some ({ s with moreOut := true }.write frames m room)
    else
      if m.flags.more then some (s, m, .failed .einval)
      else some ({ s with moreOut := false }.write frames m room)

end Dgram

/-- With the answer of the pipe and the value of `errno`. -/
structure Call where
  msg : Msg
  room : Bool
  errno : Errno

/-- Frames with `MORE` and without it in turn. -/
def Paired (frames : List Frame) : Prop :=
  ∀ i m, frames[i]? = some m → (m.flags.more = true ↔ i % 2 = 0)

/-- A call that fails with `EAGAIN` or `EINVAL` can be made again as if it had not been made, and
the frames are pairs. -/
def Retried : Dgram → List Call → Prop
  | _, [] => True
  | s, c :: later => ∃ t m sent, s.xsend ⟨c.msg, true⟩ c.room c.errno = some (t, m, sent) ∧
    (sent = .failed .eagain ∨ sent = .failed .einval →
      ∀ room errno, t.xsend m room errno = s.xsend ⟨c.msg, true⟩ room errno) ∧
    (∀ frames, t.pipe = some frames → Paired frames) ∧ Retried t later

/-- The pipe refuses no frame that has `MORE` where it should. -/
def Roomy : Bool → List Call → Prop
  | _, [] => True
  | moreOut, c :: later =>
    if c.msg.flags.more = moreOut then Roomy moreOut later
    else c.room = true ∧ Roomy (!moreOut) later

theorem Paired.append {frames : List Frame} {m : Frame} (h : Paired frames)
    (hm : m.flags.more = true ↔ frames.length % 2 = 0) : Paired (frames ++ [m]) := by
  intro i m' hm'
  rw [List.getElem?_append] at hm'
  split at hm'
  · exact h i m' hm'
  · obtain ⟨hi, rfl⟩ : i - frames.length = 0 ∧ m = m' := by
      simpa [List.getElem?_singleton] using hm'
    rw [show i = frames.length by omega]
    exact hm

theorem xsend_rejected {moreOut : Bool} {m : Frame} (h : m.flags.more = moreOut)
    (frames : List Frame) (room : Bool) (errno : Errno) :
    Dgram.xsend ⟨moreOut, some frames⟩ m room errno =
      some (⟨moreOut, some frames⟩, m, .failed .einval) := by
  cases moreOut <;> simp [Dgram.xsend, h]

theorem xsend_taken {moreOut : Bool} {m : Frame} (h : m.flags.more = !moreOut)
    (frames : List Frame) (room : Bool) (errno : Errno) :
    Dgram.xsend ⟨moreOut, some frames⟩ m room errno =
      some (Dgram.write ⟨!moreOut, some frames⟩ frames m room) := by
  cases moreOut <;> simp_all [Dgram.xsend]

/-- Without a pipe the message is closed, and the second call fails an assertion. -/
theorem retried_detached (moreOut : Bool) (calls : List Call) :
    Retried ⟨moreOut, none⟩ calls ↔ ∀ c ∈ calls, c.errno = .other := by
  induction calls with
  | nil => simp [Retried]
  | cons c later ih =>
    cases herrno : c.errno <;> simp [Retried, Dgram.xsend, ih, herrno]

/-- `more_out` is set after every other frame. -/
theorem retried_attached {moreOut : Bool} {frames : List Frame} (hpaired : Paired frames)
    (heven : moreOut = true ↔ frames.length % 2 = 1) (calls : List Call) :
    Retried ⟨moreOut, some frames⟩ calls ↔ Roomy moreOut calls := by
  induction calls generalizing moreOut frames with
  | nil => exact Iff.rfl
  | cons c later ih =>
    rw [Retried, Roomy]
    by_cases hsame : c.msg.flags.more = moreOut
    · simp [xsend_rejected, hsame, hpaired, ih hpaired heven]
    · have hmore : c.msg.flags.more = !moreOut := by
        cases moreOut <;> simpa using hsame
      have htaken := @xsend_taken moreOut ⟨c.msg, true⟩ hmore frames
      simp only [htaken, if_neg hsame, Dgram.write]
      cases c.room with
      | false =>
        -- the frame is refused, and then it has `MORE` where it should not
        simp [@xsend_rejected (!moreOut) ⟨c.msg, true⟩ hmore]
      | true =>
        have hlength : c.msg.flags.more = true ↔ frames.length % 2 = 0 := by
          cases moreOut <;> simp_all
        have happend : Paired (frames ++ [⟨c.msg, true⟩]) := hpaired.append hlength
        have hflip : (!moreOut) = true ↔ (frames ++ [Frame.mk c.msg true]).length % 2 = 1 := by
          rw [List.length_append, List.length_singleton, ← hmore, hlength]
          omega
        simp [happend, ih happend hflip]

/-- Failed calls can be repeated, and the frames are pairs, exactly if a pipe refuses no frame
that has `MORE` where it should, and `errno` says something else where there is no pipe. -/
theorem dgram_retry_iff (attached : Bool) (calls : List Call) :
    Retried ⟨false, if attached then some [] else none⟩ calls ↔
      if attached then Roomy false calls else ∀ c ∈ calls, c.errno = .other := by
  cases attached with
  | false => exact retried_detached false calls
  | true => exact retried_attached (by simp [Paired]) (by simp) calls

/-- An address is refused, and then the socket rejects it and takes data without an address. -/
theorem address_refused :
    Dgram.xsend {} { flags := { more := true } } false .other =
        some ({ moreOut := true }, { flags := { more := true } }, .failed .eagain) ∧
      Dgram.xsend { moreOut := true } { flags := { more := true } } true .other =
        some ({ moreOut := true }, { flags := { more := true } }, .failed .einval) ∧
      Dgram.xsend { moreOut := true } {} true .other = some ({ pipe := some [{}] }, {}, .ok) := by
  decide

end Dgram

section Stream
variable {Pipe : Type} [DecidableEq Pipe]

inductive Effect (Pipe : Type) where
  | write (pipe : Pipe) (m : Msg)
  | terminate (pipe : Pipe)
  deriving DecidableEq

/-- With what was done to pipes. -/
structure Stream (Pipe : Type) where
  currentOut : Option Pipe := none
  moreOut : Bool := false
  log : List (Effect Pipe) := []
  deriving DecidableEq

/-- The table of pipes, and the answers of `check_write`, when a frame is passed. -/
structure Env (Pipe : Type) where
  outpipes : List (List UInt8 × Pipe)
  checkWrite : Pipe → Bool

def Env.attached (env : Env Pipe) (p : Pipe) : Bool := env.outpipes.any (·.2 = p)

def effect (p : Pipe) (m : Msg) : Effect Pipe := if m.size = 0 then .terminate p else .write p m

/-- `xpipe_terminated` takes a pipe out of the table and clears `current_out`. -/
def Stream.processCommands (env : Env Pipe) (s : Stream Pipe) : Stream Pipe :=
  { s with currentOut := s.currentOut.filter env.attached }

/-- There is no socket after a failed assertion. -/
def Stream.xsend (env : Env Pipe) (s : Stream Pipe) (m : Msg) : Option (Stream Pipe) :=
  if s.moreOut = false then
    if s.currentOut.isSome then none
    else if m.flags.more then
      match env.outpipes.lookup m.data with
      -- EHOSTUNREACH
      | none => some s
      | some p =>
        -- EAGAIN
        if env.checkWrite p = false then some s
        else some { s with currentOut := some p, moreOut := true }
    else some { s with moreOut := true }
  else
    match s.currentOut with
    | none => some { s with moreOut := false }
    | some p => some { s with
        currentOut := none, moreOut := false
        log := if m.size = 0 ∨ env.checkWrite p = true then s.log ++ [effect p m] else s.log }

/-- Commands are processed before every frame. -/
def Stream.send (env : Env Pipe) (s : Stream Pipe) (m : Msg) : Option (Stream Pipe) :=
  (s.processCommands env).xsend env m

/-- A message of the user, with what each of its frames meets. -/
inductive Sending (Pipe : Type) where
  | pair (env env' : Env Pipe) (id data : Msg) (first : id.flags.more = true)
      (last : data.flags.more = false)
  | malformed (env : Env Pipe) (m : Msg) (last : m.flags.more = false)

def Stream.sendFrames (s : Stream Pipe) : Sending Pipe → Option (Stream Pipe)
  | .pair env env' id data _ _ => (s.send env id).bind (·.send env' data)
  | .malformed env m _ => s.send env m

/-- The pipe that an id names, if it can be written to. -/
def named (env : Env Pipe) (id : Msg) : Option Pipe :=
  (env.outpipes.lookup id.data).filter env.checkWrite

/-- What a message may do to pipes. Data without bytes finds a pipe that has terminated already as
it should be. -/
def Allowed : Sending Pipe → List (Effect Pipe) → Prop
  | .pair env env' id data _ _, effects => ∀ p ∈ named env id,
      effects = [effect p data] ∨ data.size = 0 ∧ env'.attached p = false ∧ effects = []
  | .malformed _ _ _, effects => effects = []

/-- The messages do what they should, each at its time. -/
def Treated : Stream Pipe → List (Sending Pipe) → Prop
  | _, [] => True
  | s, m :: later => ∃ t, s.sendFrames m = some t ∧
      (∃ effects, t.log = s.log ++ effects ∧ Allowed m effects) ∧ Treated t later

/-- Before a pair that names a pipe that can be written to, an even number of malformed messages
have come since the last pair, and the pipe still takes its data; or the data has no bytes and the
pipe has terminated already. A pair that names no such pipe is like a malformed message after a
pair. -/
def Aligned : Bool → List (Sending Pipe) → Prop
  | _, [] => True
  | odd, .malformed _ _ _ :: later => Aligned (!odd) later
  | odd, .pair env env' id data _ _ :: later =>
    match named env id with
    | none => Aligned true later
    | some p => Aligned odd later ∧
        if env'.attached p = true then odd = false ∧ (data.size = 0 ∨ env'.checkWrite p = true)
        else data.size = 0

variable {env env' : Env Pipe} {id data : Msg} {log : List (Effect Pipe)}

theorem sendFrames_odd (first : id.flags.more = true) (last : data.flags.more = false) :
    Stream.sendFrames ⟨none, true, log⟩ (.pair env env' id data first last) =
      some ⟨none, true, log⟩ := by
  simp [Stream.sendFrames, Stream.send, Stream.processCommands, Stream.xsend, last]

theorem sendFrames_nowhere (first : id.flags.more = true) (last : data.flags.more = false)
    (h : named env id = none) :
    Stream.sendFrames ⟨none, false, log⟩ (.pair env env' id data first last) =
      some ⟨none, true, log⟩ := by
  rw [named, Option.filter_eq_none_iff] at h
  cases hlookup : env.outpipes.lookup id.data with
  | none =>
    simp [Stream.sendFrames, Stream.send, Stream.processCommands, Stream.xsend, first, last,
      hlookup]
  | some p =>
    simp [Stream.sendFrames, Stream.send, Stream.processCommands, Stream.xsend, first, last,
      hlookup, h p hlookup]

theorem sendFrames_named (first : id.flags.more = true) (last : data.flags.more = false)
    {p : Pipe} (h : named env id = some p) :
    Stream.sendFrames ⟨none, false, log⟩ (.pair env env' id data first last) =
      some ⟨none, false, log ++
        if env'.attached p = true ∧ (data.size = 0 ∨ env'.checkWrite p = true)
        then [effect p data] else []⟩ := by
  obtain ⟨hlookup, hwrite⟩ := Option.filter_eq_some_iff.mp h
  cases hattached : env'.attached p <;>
    simp [Stream.sendFrames, Stream.send, Stream.processCommands, Stream.xsend, first, hlookup,
      hwrite, hattached, Option.filter]
  split <;> simp

/-- The data of a pair reaches its pipe exactly if the pipe is still there for it. -/
theorem allowed_iff (first : id.flags.more = true) (last : data.flags.more = false) {p : Pipe}
    (h : named env id = some p) :
    Allowed (.pair env env' id data first last)
        (if env'.attached p = true ∧ (data.size = 0 ∨ env'.checkWrite p = true)
          then [effect p data] else []) ↔
      if env'.attached p = true then data.size = 0 ∨ env'.checkWrite p = true
        else data.size = 0 := by
  cases hattached : env'.attached p <;> simp [Allowed, h, hattached, or_iff_not_imp_left]

theorem treated_iff (odd : Bool) (log : List (Effect Pipe)) (input : List (Sending Pipe)) :
    Treated ⟨none, odd, log⟩ input ↔ Aligned odd input := by
  induction input generalizing odd log with
  | nil => exact Iff.rfl
  | cons x later ih =>
    cases x with
    | malformed env m last =>
      have hsend : Stream.sendFrames ⟨none, odd, log⟩ (.malformed env m last) =
          some ⟨none, !odd, log⟩ := by
        cases odd <;>
          simp [Stream.sendFrames, Stream.send, Stream.processCommands, Stream.xsend, last]
      simp [Treated, Aligned, hsend, Allowed, ih]
    | pair env env' id data first last =>
      rw [Treated, Aligned]
      cases hnamed : named env id with
      | none =>
        have hsend : Stream.sendFrames ⟨none, odd, log⟩ (.pair env env' id data first last) =
            some ⟨none, true, log⟩ := by
          cases odd with
          | false => exact sendFrames_nowhere first last hnamed
          | true => exact sendFrames_odd first last
        simp [hsend, Allowed, hnamed, ih]
      | some p =>
        cases odd with
        | false =>
          simp [sendFrames_named first last hnamed, allowed_iff first last hnamed, ih, and_comm]
        | true =>
          cases hattached : env'.attached p <;>
            simp [sendFrames_odd first last, Allowed, hnamed, hattached, ih, and_comm]

/-- Every message of a sequence is treated as it should be exactly if the frames of those that go
nowhere come in twos and no pipe is lost between the two frames of a pair. -/
theorem stream_send_iff (input : List (Sending Pipe)) : Treated {} input ↔ Aligned false input :=
  treated_iff false [] input

/-- After a malformed message, data for an attached pipe is lost. -/
theorem malformed_shifts :
    ((Stream.sendFrames {} (.malformed ⟨[([1], 0)], fun _ => true⟩ {} rfl)).bind
      (·.sendFrames (.pair ⟨[([1], 0)], fun _ => true⟩ ⟨[([1], 0)], fun _ => true⟩
        { flags := { more := true }, data := [1] } { data := [7] } rfl rfl))) =
      some ({ moreOut := true } : Stream Nat) := by
  decide

end Stream

end Uzmq.TwoFrameSends
