import Uzmq.Runs
import Uzmq.V2RoundTrip

/-!
# Sending on a data connection

`stream_engine_t::data_out_event` in small steps: one step for the start of an
outer turn, one for each turn of the filling loop and one for each call of
`tcp_write`. The steps of a call may be interleaved with messages that become
available in the session.

Every byte in the batch is tagged with the remote id of the message it encodes.
The code does not have the tags; together with the messages pulled and the calls
of `tcp_write` made so far they record what the properties speak about.
-/

namespace Uzmq.DataOutEvent

open List Message V2Encoder V2RoundTrip

def outBatchSize : Nat := 8192

/-- The errors `tcp_write` tells apart. -/
inductive Errno where
  | eagain
  | ewouldblock
  | eintr
  | eacces
  | ebadf
  | edestaddrreq
  | efault
  | eisconn
  | emsgsize
  | enomem
  | enotsock
  | eopnotsupp
  | other
  deriving DecidableEq, Repr

/-- What `lwip_send_netml` answers. -/
inductive Answer where
  | sent (nbytes : Nat)
  | error (errno : Errno)
  deriving DecidableEq, Repr

/-- The result of `tcp_write`; `none` is its failed assertion on `errno`. -/
def tcpWrite : Answer → Option Int
  | .sent nbytes => some nbytes
  | .error .eagain => some 0
  | .error .ewouldblock => some 0
  | .error .eintr => some 0
  | .error .other => some (-1)
  | .error _ => none

structure Call where
  offered : List (UInt8 × Nat)
  target : Nat
  hot : Bool
  result : Int
  deriving DecidableEq, Repr

/-- Where `data_out_event` stands: outside, at the start of the outer loop, at the
condition of the filling loop, inside the writing loop, or stopped by an assertion. -/
inductive Pc where
  | idle
  | top
  | fill
  | sending (nsent : Nat)
  | aborted
  deriving DecidableEq, Repr

/-- `out` are the `outsize` bytes from `outpos` on, `queue` what `next_msg` will
deliver. `pulled` and `calls` only record. -/
structure State where
  encoder : Encoder
  out : List (UInt8 × Nat)
  outNull : Bool
  lastRemote : Nat
  isMsgEnd : Bool
  isHot : Bool
  pc : Pc
  queue : List Msg
  pulled : List Msg
  calls : List Call
  deriving DecidableEq, Repr

def initial (tmpbuf1 : UInt8) : State where
  encoder := Encoder.new outBatchSize tmpbuf1
  out := []
  outNull := true
  lastRemote := uint16Max
  isMsgEnd := true
  isHot := false
  pc := .idle
  queue := []
  pulled := []
  calls := []

/-- The 16 bits of the remote id the engine keeps. -/
def remote (m : Msg) : Nat := m.getRemoteId % 2 ^ 16

/-- Complete messages one after the other, all parts of one with the same remote
id; `mid` is the id of the message whose first parts have been seen already. -/
def wholeParts : Option Nat → List Msg → Bool
  | mid, [] => mid.isNone
  | mid, m :: later =>
    mid.all (· == m.getRemoteId) &&
      wholeParts (if m.flags.more then some m.getRemoteId else none) later

def tag (m : Msg) (bytes : List UInt8) : List (UInt8 × Nat) :=
  bytes.map (·, m.getRemoteId)

/-- `outpos = NULL; outsize = encoder->encode (&outpos, 0)`. The pointer stays null
exactly when no message is in progress. -/
def encodeBatch (s : State) : State :=
  match s.encoder.inProgress with
  | none => { s with out := [], outNull := true, pc := .fill }
  | some m =>
    let (bytes, e) := encode s.encoder .own
    { s with encoder := e, out := tag m bytes, outNull := false, pc := .fill }

def afterFill (s : State) : State :=
  if s.out ≠ [] ∧ s.isMsgEnd then { s with pc := .sending 0 }
  else if s.out = [] then { s with pc := .idle }
  else { s with pc := .top }

/-- The buffer for the next message: behind the batch, or the encoder's own when
the batch has not been started. -/
def nextBuffer (s : State) : Buffer :=
  if s.outNull then .own else .supplied (outBatchSize - s.out.length)

/-- A turn of the filling loop that got the message `m` from `next_msg`. -/
def loadNext (s : State) (m : Msg) (queue : List Msg) : State :=
  let s := { s with queue := queue, pulled := s.pulled ++ [m] }
  if s.lastRemote ≠ uint16Max ∧ s.lastRemote ≠ remote m then { s with pc := .aborted }
  else
    match loadMsg s.encoder m with
    | none => { s with lastRemote := remote m, pc := .aborted }
    | some e =>
      let (bytes, e) := encode e (nextBuffer s)
      if bytes = [] then { s with lastRemote := remote m, encoder := e, pc := .aborted }
      else
        let s := { s with
          lastRemote := remote m, encoder := e, out := s.out ++ tag m bytes, outNull := false }
        if m.flags.more then { s with isMsgEnd := false, pc := .fill }
        else afterFill { s with isMsgEnd := true, isHot := m.flags.netmlHotdata }

def fill (s : State) : State :=
  if s.out.length < outBatchSize then
    match s.queue with
    | [] => afterFill s
    | m :: queue => loadNext s m queue
  else afterFill s

/-- A turn of the writing loop, after `tcp_write` has returned `nbytes`. -/
def write (s : State) (nsent : Nat) (nbytes : Int) : State :=
  let s := { s with calls := s.calls ++ [⟨s.out, s.lastRemote, s.isHot, nbytes⟩] }
  if nbytes < 0 then { s with pc := .idle }
  else if nbytes = 0 then s
  else
    -- `outsize` shrinks while `nsent` grows, and the loop compares the two.
    let nsent := (nsent + nbytes.toNat) % 2 ^ 32
    let s := { s with out := s.out.drop nbytes.toNat }
    if nsent < s.out.length then { s with pc := .sending nsent }
    else { s with lastRemote := uint16Max, pc := .top }

inductive Input where
  | call
  | go
  | write (answer : Answer)
  | arrive (parts : List Msg)
  deriving DecidableEq, Repr

/-- Not more is sent than offered, and the count fits the `int` it is returned in. -/
def Answer.fits (offered : Nat) : Answer → Bool
  | .sent nbytes => nbytes ≤ offered && nbytes < 2 ^ 31
  | .error _ => true

def step (s : State) : Input → Option State
  | .call => if s.pc = .idle then some { s with pc := .top } else none
  | .go =>
    match s.pc with
    | .top => some (encodeBatch s)
    | .fill => some (fill s)
    | _ => none
  | .write answer =>
    match s.pc with
    | .sending nsent =>
      if answer.fits s.out.length then
        match tcpWrite answer with
        | none => some { s with pc := .aborted }
        | some nbytes => some (write s nsent nbytes)
      else none
    | _ => none
  | .arrive parts =>
    if wholeParts none parts then some { s with queue := s.queue ++ parts } else none

/-- Bytes `tcp_write` accepted, in order. -/
def Call.taken (c : Call) : List UInt8 := (c.offered.take c.result.toNat).map Prod.fst

def accepted (s : State) : List UInt8 := (s.calls.map Call.taken).flatten

def failed (s : State) : Prop := ∃ c ∈ s.calls, c.result < 0
  deriving Decidable

variable {queue : List Msg} {m : Msg} {e : Encoder} {bytes : List UInt8} {i : Input} {t : State}

theorem wholeParts_append {mid : Option Nat} {parts : List Msg}
    (hqueue : wholeParts mid queue = true) (hparts : wholeParts none parts = true) :
    wholeParts mid (queue ++ parts) = true := by
  induction queue generalizing mid with
  | nil =>
    simp only [wholeParts, Option.isNone_iff_eq_none] at hqueue
    subst hqueue
    exact hparts
  | cons m queue ih =>
    simp only [wholeParts, Bool.and_eq_true] at hqueue
    simp only [cons_append, wholeParts, Bool.and_eq_true]
    exact ⟨hqueue.1, ih hqueue.2⟩

/-- The filling loop is left to write the batch, to return, or with a batch that
ends inside a message and is never looked at again. -/
inductive Leaves (s : State) : Pc → Prop where
  | send (nonempty : s.out ≠ []) (complete : s.isMsgEnd = true) : Leaves s (.sending 0)
  | clear (empty : s.out = []) : Leaves s .idle
  | discard (nonempty : s.out ≠ []) (cut : s.isMsgEnd = false) : Leaves s .top

theorem afterFill_leaves (s : State) : ∃ pc, afterFill s = { s with pc := pc } ∧ Leaves s pc := by
  by_cases hout : s.out = []
  · exact ⟨.idle, by simp [afterFill, hout], .clear hout⟩
  · cases hend : s.isMsgEnd with
    | true => exact ⟨.sending 0, by simp [afterFill, hout, hend], .send hout hend⟩
    | false => exact ⟨.top, by simp [afterFill, hout, hend], .discard hout hend⟩

/-- The state after `m` was pulled and `bytes` of it were put behind the batch. -/
def appended (s : State) (m : Msg) (queue : List Msg) (bytes : List UInt8) (e : Encoder) : State :=
  { s with
    encoder := e, out := s.out ++ tag m bytes, outNull := false, lastRemote := remote m,
    isMsgEnd := !m.flags.more, isHot := if m.flags.more then s.isHot else m.flags.netmlHotdata,
    queue := queue, pulled := s.pulled ++ [m] }

/-- The turn in terms of `appended` when no assertion fails in it. -/
theorem loadNext_eq {s : State} {e' : Encoder} (queue : List Msg)
    (agrees : s.lastRemote = uint16Max ∨ s.lastRemote = remote m)
    (hload : loadMsg s.encoder m = some e) (hencode : encode e (nextBuffer s) = (bytes, e'))
    (hsome : bytes ≠ []) :
    loadNext s m queue = if m.flags.more then { appended s m queue bytes e' with pc := .fill }
      else afterFill (appended s m queue bytes e') := by
  have hagrees : ¬ (s.lastRemote ≠ uint16Max ∧ s.lastRemote ≠ remote m) := by
    rintro ⟨hmax, hne⟩
    exact agrees.elim hmax hne
  -- `next_msg` has changed fields that `nextBuffer` does not read.
  have hbuffer : nextBuffer { s with queue := queue, pulled := s.pulled ++ [m] } = nextBuffer s :=
    rfl
  cases hmore : m.flags.more with
  | true | false => simp [loadNext, hagrees, hload, hbuffer, hencode, hsome, hmore, appended]

/-- What holds of the encoder and the batch in every run, whatever arrives and
whatever `tcp_write` answers. -/
structure Sane (tmpbuf1 : UInt8) (s : State) : Prop where
  ready : Ready s.encoder
  bufsize : s.encoder.bufsize = outBatchSize
  tmpbuf1 : s.encoder.tmpbuf1 = tmpbuf1
  drained : s.pc = .fill → s.out.length < outBatchSize → s.encoder.inProgress = none
  unstarted : s.pc = .fill → s.outNull = true → s.out = []

/-- The state after a call of `tcp_write` has been logged. -/
def logged (s : State) (nbytes : Int) : State :=
  { s with calls := s.calls ++ [⟨s.out, s.lastRemote, s.isHot, nbytes⟩] }

/-- The ways in which a turn of the writing loop ends. -/
inductive Wrote (s : State) (nsent : Nat) (nbytes : Int) : State → Prop where
  | failed (neg : nbytes < 0) : Wrote s nsent nbytes { logged s nbytes with pc := .idle }
  | blocked (zero : nbytes = 0) : Wrote s nsent nbytes (logged s nbytes)
  | goesOn (pos : 0 < nbytes)
      (less : (nsent + nbytes.toNat) % 2 ^ 32 < s.out.length - nbytes.toNat) :
      Wrote s nsent nbytes { logged s nbytes with
        out := s.out.drop nbytes.toNat, pc := .sending ((nsent + nbytes.toNat) % 2 ^ 32) }
  | stops (pos : 0 < nbytes)
      (reached : ¬ (nsent + nbytes.toNat) % 2 ^ 32 < s.out.length - nbytes.toNat) :
      Wrote s nsent nbytes { logged s nbytes with
        out := s.out.drop nbytes.toNat, lastRemote := uint16Max, pc := .top }

theorem write_wrote (s : State) (nsent : Nat) (nbytes : Int) :
    Wrote s nsent nbytes (write s nsent nbytes) := by
  unfold write
  dsimp only
  rw [length_drop]
  split
  · rename_i neg
    exact .failed neg
  split
  · rename_i zero
    exact .blocked zero
  split
  · rename_i less
    exact .goesOn (by omega) less
  · rename_i reached
    exact .stops (by omega) reached

/-- Everything a step can do. -/
inductive Turn (s : State) : Input → State → Prop where
  | call (pc : s.pc = .idle) : Turn s .call { s with pc := .top }
  | batchNone (pc : s.pc = .top) (idle : s.encoder.inProgress = none) :
      Turn s .go { s with out := [], outNull := true, pc := .fill }
  | batch {m : Msg} {bytes : List UInt8} {e : Encoder} (pc : s.pc = .top)
      (loaded : s.encoder.inProgress = some m)
      (encoded : Encoded true outBatchSize m (rest s.encoder) s.encoder bytes e) :
      Turn s .go { s with encoder := e, out := tag m bytes, outNull := false, pc := .fill }
  | conflict {m : Msg} {queue : List Msg} (pc : s.pc = .fill) (pull : s.queue = m :: queue)
      (held : s.lastRemote ≠ uint16Max) (differs : s.lastRemote ≠ remote m) :
      Turn s .go { s with queue := queue, pulled := s.pulled ++ [m], pc := .aborted }
  | part {m : Msg} {queue : List Msg} {own : Bool} {bytes : List UInt8} {e : Encoder}
      (pc : s.pc = .fill) (room : s.out.length < outBatchSize) (pull : s.queue = m :: queue)
      (agrees : s.lastRemote = uint16Max ∨ s.lastRemote = remote m)
      (encoded : Encoded own (outBatchSize - s.out.length) m (frame s.encoder.tmpbuf1 m)
        s.encoder bytes e)
      (produced : bytes ≠ []) (more : m.flags.more = true) :
      Turn s .go { appended s m queue bytes e with pc := .fill }
  | last {m : Msg} {queue : List Msg} {own : Bool} {bytes : List UInt8} {e : Encoder} {pc' : Pc}
      (pc : s.pc = .fill) (room : s.out.length < outBatchSize) (pull : s.queue = m :: queue)
      (agrees : s.lastRemote = uint16Max ∨ s.lastRemote = remote m)
      (encoded : Encoded own (outBatchSize - s.out.length) m (frame s.encoder.tmpbuf1 m)
        s.encoder bytes e)
      (produced : bytes ≠ []) (ends : m.flags.more = false)
      (leaves : Leaves (appended s m queue bytes e) pc') :
      Turn s .go { appended s m queue bytes e with pc := pc' }
  | leave {pc' : Pc} (pc : s.pc = .fill) (why : s.out.length < outBatchSize → s.queue = [])
      (leaves : Leaves s pc') : Turn s .go { s with pc := pc' }
  | refused {answer : Answer} {nsent : Nat} (pc : s.pc = .sending nsent) :
      Turn s (.write answer) { s with pc := .aborted }
  | written {answer : Answer} {nsent : Nat} {nbytes : Int} (pc : s.pc = .sending nsent)
      (fits : answer.fits s.out.length = true) (result : tcpWrite answer = some nbytes) :
      Turn s (.write answer) (write s nsent nbytes)
  | arrive {parts : List Msg} (whole : wholeParts none parts = true) :
      Turn s (.arrive parts) { s with queue := s.queue ++ parts }

section Turns
variable {tmpbuf1 : UInt8} {s : State}

section
variable (sane : Sane tmpbuf1 s)
include sane

theorem encodeBatch_turn (pc : s.pc = .top) : Turn s .go (encodeBatch s) := by
  cases hprog : s.encoder.inProgress with
  | none =>
    have h := Turn.batchNone pc hprog
    simpa [encodeBatch, hprog] using h
  | some m =>
    have encoded := encode_spec sane.ready hprog .own
    have hsize : s.encoder.bufferSize .own = outBatchSize := sane.bufsize
    rw [hsize] at encoded
    have h := Turn.batch pc hprog encoded
    simpa [encodeBatch, hprog] using h

/-- Loading into a drained encoder never trips over an assertion: the encoder is
free and the header alone makes the output non-empty. -/
theorem load_encoded (pc : s.pc = .fill) (room : s.out.length < outBatchSize) (m : Msg) :
    ∃ own e bytes e', loadMsg s.encoder m = some e ∧
      encode e (nextBuffer s) = (bytes, e') ∧ bytes ≠ [] ∧
      Encoded own (outBatchSize - s.out.length) m (frame s.encoder.tmpbuf1 m)
        s.encoder bytes e' := by
  obtain ⟨e, hload, hready, hprog, hrest, hbuf, htmp⟩ :=
    loadMsg_spec sane.ready (sane.drained pc room) m
  have hsize : e.bufferSize (nextBuffer s) = outBatchSize - s.out.length := by
    cases hnull : s.outNull with
    | true =>
      have hout := sane.unstarted pc hnull
      simp [nextBuffer, hnull, Encoder.bufferSize, hbuf, sane.bufsize, hout]
    | false => simp [nextBuffer, hnull, Encoder.bufferSize]
  have encoded := encode_spec hready hprog (nextBuffer s)
  rw [hsize, hrest] at encoded
  rcases hencode : encode e (nextBuffer s) with ⟨bytes, e'⟩
  rw [hencode] at encoded
  refine ⟨(nextBuffer s).isOwn, e, bytes, e', hload, hencode, ?_, encoded.bytes, encoded.ready,
    encoded.progress,
    encoded.short, encoded.bound, encoded.bufsize.trans hbuf, encoded.tmpbuf1.trans htmp⟩
  intro hempty
  have hidle := encoded.short (by rw [hempty, length_nil]; omega)
  have hbytes := encoded.bytes
  rw [hempty, rest_of_idle hidle] at hbytes
  cases hbytes

theorem loadNext_turn (pc : s.pc = .fill) (room : s.out.length < outBatchSize)
    (pull : s.queue = m :: queue) : Turn s .go (loadNext s m queue) := by
  by_cases hconflict : s.lastRemote ≠ uint16Max ∧ s.lastRemote ≠ remote m
  · have h := Turn.conflict pc pull hconflict.1 hconflict.2
    simpa [loadNext, hconflict] using h
  have hagrees : s.lastRemote = uint16Max ∨ s.lastRemote = remote m := by
    by_cases hmax : s.lastRemote = uint16Max
    · exact Or.inl hmax
    · exact Or.inr (by_contra fun hne => hconflict ⟨hmax, hne⟩)
  obtain ⟨own, e, bytes, e', hload, hencode, hne, encoded⟩ := load_encoded sane pc room m
  rw [loadNext_eq queue hagrees hload hencode hne]
  cases hmore : m.flags.more with
  | true => exact .part pc room pull hagrees encoded hne hmore
  | false =>
    obtain ⟨pc', hpc, hleaves⟩ := afterFill_leaves (appended s m queue bytes e')
    rw [if_neg Bool.false_ne_true, hpc]
    exact .last pc room pull hagrees encoded hne hmore hleaves

theorem fill_turn (pc : s.pc = .fill) : Turn s .go (fill s) := by
  have hleave (why : s.out.length < outBatchSize → s.queue = []) : Turn s .go (afterFill s) := by
    obtain ⟨pc', hpc, hleaves⟩ := afterFill_leaves s
    rw [hpc]
    exact .leave pc why hleaves
  by_cases room : s.out.length < outBatchSize
  · cases hqueue : s.queue with
    | nil => simpa [fill, room, hqueue] using hleave fun _ => hqueue
    | cons m queue =>
      have h := loadNext_turn sane pc room hqueue
      simpa [fill, room, hqueue] using h
  · simpa [fill, room] using hleave fun h => absurd h room

theorem step_turn (h : step s i = some t) : Turn s i t := by
  cases i with
  | call =>
    simp only [step] at h
    split at h
    · rename_i pc
      cases h
      exact .call pc
    · cases h
  | go =>
    simp only [step] at h
    split at h
    · rename_i pc
      cases h
      exact encodeBatch_turn sane pc
    · rename_i pc
      cases h
      exact fill_turn sane pc
    · cases h
  | write answer =>
    simp only [step] at h
    split at h
    · rename_i nsent pc
      split at h
      · rename_i fits
        split at h
        · cases h
          exact .refused pc
        · rename_i nbytes result
          cases h
          exact .written pc fits result
      · cases h
    · cases h
  | arrive parts =>
    simp only [step] at h
    split at h
    · rename_i whole
      cases h
      exact .arrive whole
    · cases h

end

theorem initial_sane (tmpbuf1 : UInt8) : Sane tmpbuf1 (initial tmpbuf1) :=
  ⟨new_ready _ _, rfl, rfl, by rintro ⟨⟩, by rintro ⟨⟩⟩

theorem Leaves.pc_ne_fill {pc : Pc} (h : Leaves s pc) : pc ≠ .fill := by
  cases h <;> simp

theorem Sane.encoded (sane : Sane tmpbuf1 s) {own : Bool} {size : Nat} {owed : List UInt8}
    (encoded : Encoded own size m owed s.encoder bytes e) (he : t.encoder = e)
    (hshort : t.out.length < outBatchSize → bytes.length < size) (hnull : t.outNull = false) :
    Sane tmpbuf1 t where
  ready := by rw [he]; exact encoded.ready
  bufsize := by rw [he, encoded.bufsize]; exact sane.bufsize
  tmpbuf1 := by rw [he, encoded.tmpbuf1]; exact sane.tmpbuf1
  drained := by
    intro _ hroom
    rw [he]
    exact encoded.short (hshort hroom)
  unstarted := by
    intro _ h
    rw [hnull] at h
    cases h

theorem Sane.keep (sane : Sane tmpbuf1 s) (he : t.encoder = s.encoder) (hpc : t.pc ≠ .fill) :
    Sane tmpbuf1 t where
  ready := by rw [he]; exact sane.ready
  bufsize := by rw [he]; exact sane.bufsize
  tmpbuf1 := by rw [he]; exact sane.tmpbuf1
  drained := fun h => absurd h hpc
  unstarted := fun h => absurd h hpc

theorem turn_sane (sane : Sane tmpbuf1 s) (turn : Turn s i t) : Sane tmpbuf1 t := by
  cases turn with
  | call | conflict | refused => exact sane.keep rfl (by simp)
  | batchNone pc idle =>
    exact { sane with drained := fun _ _ => idle, unstarted := fun _ _ => rfl }
  | batch pc loaded encoded =>
    apply sane.encoded encoded rfl _ rfl
    simp [tag]
  | part _ _ _ _ encoded | last _ _ _ _ encoded =>
    apply sane.encoded encoded rfl _ rfl
    simp only [appended, tag, length_append, length_map]
    omega
  | leave pc why leaves => exact sane.keep rfl leaves.pc_ne_fill
  | @written answer nsent nbytes pc =>
    have hwrote := write_wrote s nsent nbytes
    generalize write s nsent nbytes = t at hwrote
    cases hwrote <;> exact sane.keep rfl (by simp [logged, pc])
  | arrive => exact { sane with }

end Turns

end Uzmq.DataOutEvent
