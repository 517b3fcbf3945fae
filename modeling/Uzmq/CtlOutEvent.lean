import Uzmq.DataOutEvent

/-!
# Sending on a control connection

`stream_engine_t::ctl_out_event`, a call at a time. `queue` are the messages that `next_msg` will
deliver, `out` the `outsize` bytes from `outpos` on; `pulled` and `accepted` only record.
-/

namespace Uzmq.CtlOutEvent

open List
open Message V2Encoder Runs
open DataOutEvent (outBatchSize)

structure State where
  encoder : Encoder
  out : List UInt8 := []
  outNull : Bool := true
  queue : List Msg := []
  pulled : List Msg := []
  accepted : List UInt8 := []
  failed : Bool := false
  deriving DecidableEq

/-- `outpos` stays null if no message is in progress. -/
def encodeBatch (s : State) : State :=
  { s with
    encoder := (encode s.encoder .own).2
    out := (encode s.encoder .own).1
    outNull := s.encoder.inProgress.isNone }

def nextBuffer (s : State) : Buffer :=
  if s.outNull then .own else .supplied (outBatchSize - s.out.length)

/-- The filling loop, which ends with the batch or with the messages. -/
def fill (s : State) : List Msg → State
  | [] => { s with queue := [] }
  | m :: later =>
    if s.out.length < outBatchSize then
      let s := { s with pulled := s.pulled ++ [m] }
      if m.flags.netmlData then fill s later
      else
        match loadMsg s.encoder m with
        | none => { s with failed := true }
        | some e =>
          let (bytes, e) := encode e (nextBuffer s)
          if bytes = [] then { s with failed := true }
          else fill { s with encoder := e, out := s.out ++ bytes, outNull := false } later
    else { s with queue := m :: later }

/-- `nbytes` is what `tcp_write` returns, `none` its −1. -/
def ctlOutEvent (s : State) (nbytes : Option Nat) : Option State :=
  let s := if s.out = [] then fill (encodeBatch s) s.queue else s
  if s.failed then some s
  else
    match nbytes with
    | none => some s
    | some n =>
      if n ≤ s.out.length then
        some { s with out := s.out.drop n, accepted := s.accepted ++ s.out.take n }
      else none

inductive Input where
  | arrive (m : Msg)
  | out (nbytes : Option Nat)

def step (s : State) (i : Input) : Option State :=
  if s.failed then none
  else
    match i with
    | .arrive m => some { s with queue := s.queue ++ [m] }
    | .out nbytes => ctlOutEvent s nbytes

def initial (tmp : UInt8) : State := { encoder := Encoder.new outBatchSize tmp }

/-- The encodings of the messages that belong on a control connection. -/
def owed (tmp : UInt8) (pulled : List Msg) : List UInt8 :=
  (pulled.filter fun m => !m.flags.netmlData).flatMap (frame tmp)

/-- Every byte has been accepted, is in the batch, or is still in the encoder. -/
structure Inv (tmp : UInt8) (s : State) : Prop where
  failed : s.failed = false
  ready : Ready s.encoder
  bufsize : s.encoder.bufsize = outBatchSize
  tmpbuf1 : s.encoder.tmpbuf1 = tmp
  bytes : s.accepted ++ s.out ++ rest s.encoder = owed tmp s.pulled

/-- A batch that is not full has room because the encoder has nothing left. -/
structure Filling (tmp : UInt8) (s : State) : Prop extends Inv tmp s where
  idle : s.out.length < outBatchSize → s.encoder.inProgress = none
  null : s.outNull = true → s.out = []

variable {tmp : UInt8} {s : State}

theorem Inv.encodeBatch (h : Inv tmp s) (hout : s.out = []) : Filling tmp (encodeBatch s) := by
  have hbytes := h.bytes
  rw [hout, append_nil] at hbytes
  cases hprogress : s.encoder.inProgress with
  | none =>
    have hencode : encode s.encoder .own = ([], s.encoder) := by simp [encode, hprogress]
    unfold CtlOutEvent.encodeBatch
    rw [hencode]
    refine ⟨⟨h.failed, h.ready, h.bufsize, h.tmpbuf1, ?_⟩, fun _ => hprogress, fun _ => rfl⟩
    rw [append_nil]
    exact hbytes
  | some m =>
    have hencoded := encode_spec h.ready hprogress .own
    refine ⟨⟨h.failed, hencoded.ready, hencoded.bufsize.trans h.bufsize,
      hencoded.tmpbuf1.trans h.tmpbuf1, ?_⟩, ?_, ?_⟩
    · exact (append_assoc _ _ _).trans ((congrArg _ hencoded.bytes).trans hbytes)
    · intro hlt
      exact hencoded.short (Nat.lt_of_lt_of_eq hlt h.bufsize.symm)
    · intro hnull
      simp [CtlOutEvent.encodeBatch, hprogress] at hnull

theorem Filling.load (h : Filling tmp s) (hlt : s.out.length < outBatchSize) {m : Msg}
    (hdata : m.flags.netmlData = false) :
    ∃ e, loadMsg s.encoder m = some e ∧ (encode e (nextBuffer s)).1 ≠ [] ∧
      Filling tmp { s with
        pulled := s.pulled ++ [m], encoder := (encode e (nextBuffer s)).2
        out := s.out ++ (encode e (nextBuffer s)).1, outNull := false } := by
  obtain ⟨e, hload, hready, hprogress, hrest, hbufsize, htmpbuf1⟩ :=
    loadMsg_spec h.ready (h.idle hlt) m
  have hencoded := encode_spec hready hprogress (nextBuffer s)
  have hsize : e.bufferSize (nextBuffer s) = outBatchSize - s.out.length := by
    unfold nextBuffer
    split
    · rename_i hnull
      rw [h.null hnull]
      exact hbufsize.trans h.bufsize
    · rfl
  have hshort := hencoded.short
  rw [hsize] at hshort
  refine ⟨e, hload, ?_, ⟨h.failed, hencoded.ready, ?_, ?_, ?_⟩, ?_, nofun⟩
  · intro hnil
    -- Nothing of the frame can be left, but it has a header.
    rw [hnil] at hshort
    have hframe := hencoded.bytes
    rw [hnil, rest_of_idle (hshort (Nat.sub_pos_of_lt hlt)), hrest] at hframe
    cases hframe
  · exact hencoded.bufsize.trans (hbufsize.trans h.bufsize)
  · exact hencoded.tmpbuf1.trans (htmpbuf1.trans h.tmpbuf1)
  · have hbytes := h.bytes
    rw [rest_of_idle (h.idle hlt), append_nil] at hbytes
    have hframe := hencoded.bytes
    rw [hrest, h.tmpbuf1] at hframe
    simp only [owed, filter_append, flatMap_append] at hbytes ⊢
    simp [hbytes.symm, hdata, hframe]
  · intro hroom
    rw [length_append] at hroom
    exact hshort (by omega)

theorem Filling.fill (h : Filling tmp s) (queue : List Msg) : Inv tmp (fill s queue) := by
  induction queue generalizing s with
  | nil => exact { h.toInv with }
  | cons m later ih =>
    rw [CtlOutEvent.fill]
    split
    · rename_i hlt
      cases hdata : m.flags.netmlData with
      | true =>
        refine ih { h with bytes := ?_ }
        have hbytes := h.bytes
        rw [hbytes]
        simp [owed, hdata]
      | false =>
        obtain ⟨e, hload, hne, hnext⟩ := h.load hlt hdata
        have hbuffer : nextBuffer { s with pulled := s.pulled ++ [m] } = nextBuffer s := rfl
        simp only [hload, hbuffer, Bool.false_eq_true, if_false, if_neg hne]
        exact ih hnext
    · exact { h.toInv with }

theorem Inv.ctlOutEvent {nbytes : Option Nat} {t : State} (h : Inv tmp s)
    (hstep : ctlOutEvent s nbytes = some t) : Inv tmp t := by
  have hinv : Inv tmp (if s.out = [] then CtlOutEvent.fill (CtlOutEvent.encodeBatch s) s.queue
      else s) := by
    split
    · rename_i hout
      exact (h.encodeBatch hout).fill s.queue
    · exact h
  unfold CtlOutEvent.ctlOutEvent at hstep
  generalize (if s.out = [] then CtlOutEvent.fill (CtlOutEvent.encodeBatch s) s.queue else s) = u
    at hinv hstep
  simp only [hinv.failed, Bool.false_eq_true, if_false] at hstep
  cases nbytes with
  | none =>
    cases hstep
    exact hinv
  | some n =>
    obtain ⟨-, ⟨⟩⟩ := Option.ite_none_right_eq_some.mp hstep
    refine { hinv with failed := rfl, bytes := ?_ }
    have hbytes := hinv.bytes
    rwa [← take_append_drop n u.out, ← append_assoc] at hbytes

/-- What `tcp_write` accepts is always a prefix of the encodings of the messages pulled that are
not data, and no assertion fails. -/
theorem accepted_of_reach (h : Reach (· = initial tmp) Always step s) :
    s.failed = false ∧ s.accepted <+: owed tmp s.pulled := by
  have hinv : Inv tmp s := by
    refine h.invariant ?_ ?_
    · rintro _ rfl
      exact ⟨rfl, new_ready _ _, rfl, rfl, rfl⟩
    · intro s i t hs _ hstep
      simp only [step, hs.failed, Bool.false_eq_true, if_false] at hstep
      cases i with
      | arrive m =>
        cases hstep
        exact { hs with failed := rfl }
      | out nbytes => exact hs.ctlOutEvent hstep
  refine ⟨hinv.failed, s.out ++ rest s.encoder, ?_⟩
  rw [← append_assoc]
  exact hinv.bytes

/-- A data message is passed over, and of the other one three bytes are accepted after a failure. -/
theorem accepted_example : ∃ s, Reach (· = initial 0) Always step s ∧
    (s.failed = false ∧ s.accepted <+: owed 0 s.pulled) ∧ s.accepted = [2, 0, 0] := by
  refine Reach.of_exec_left (s := initial 0) Always step
    [.arrive { flags := { netmlData := true } }, .arrive { data := [7] }, .out none, .out (some 3)]
    ?_ rfl fun s hs => accepted_of_reach hs
  decide +kernel

end Uzmq.CtlOutEvent
