import Uzmq.Wire
import Uzmq.Message

/-!
# The v2 encoder

`encoder_base_t::encode` driven by the two actions of `v2_encoder_t`. The bytes
from `write_pos` on, `to_write` of them, are kept as a list: they lie in `tmpbuf`
or in the message, and neither changes before they are written. The second byte
of `tmpbuf` is sent although no code assigns it, so it is a field of its own.

`rest` is what the encoder still owes for the loaded message; `encode_spec` is the
only fact about the loop the later modules use.
-/

namespace Uzmq.V2Encoder

open List Message Wire

/-- Bits of the first header byte. -/
def moreFlag : UInt8 := 1
def largeFlag : UInt8 := 2
def commandFlag : UInt8 := 4
def keyFlag : UInt8 := 8

inductive Step where
  | messageReady
  | sizeReady
  deriving DecidableEq, Repr

structure Encoder where
  toWrite : List UInt8
  next : Step
  newMsgFlag : Bool
  bufsize : Nat
  inProgress : Option Msg
  tmpbuf1 : UInt8
  deriving DecidableEq, Repr

/-- The constructor schedules `message_ready` with nothing to write. -/
def Encoder.new (bufsize : Nat) (tmpbuf1 : UInt8) : Encoder where
  toWrite := []
  next := .messageReady
  newMsgFlag := true
  bufsize := bufsize
  inProgress := none
  tmpbuf1 := tmpbuf1

def protocolFlags (m : Msg) : UInt8 :=
  (if m.flags.more then moreFlag else 0) ||| (if m.flags.command then commandFlag else 0) |||
    largeFlag ||| (if m.flags.netmlKey then keyFlag else 0)

/-- Key messages announce the number of 64-bit keys, all others their size. -/
def lengthField (m : Msg) : Nat :=
  if m.flags.netmlKey then m.size / 8 % 2 ^ 32 else m.size % 2 ^ 32

def header (tmpbuf1 : UInt8) (m : Msg) : List UInt8 :=
  protocolFlags m :: tmpbuf1 :: putUint32 (lengthField m)

@[simp] theorem length_header (tmpbuf1 : UInt8) (m : Msg) : (header tmpbuf1 m).length = 6 := rfl

def messageReady (e : Encoder) (m : Msg) : Encoder :=
  { e with toWrite := header e.tmpbuf1 m, next := .sizeReady, newMsgFlag := false }

def sizeReady (e : Encoder) (m : Msg) : Encoder :=
  { e with toWrite := m.data, next := .messageReady, newMsgFlag := true }

def runNext (e : Encoder) (m : Msg) : Encoder :=
  match e.next with
  | .messageReady => messageReady e m
  | .sizeReady => sizeReady e m

/-- `none` is the failed assertion that no message is in progress. -/
def loadMsg (e : Encoder) (m : Msg) : Option Encoder :=
  match e.inProgress with
  | some _ => none
  | none => some (runNext { e with inProgress := some m } m)

/-- The `data_` and `size_` arguments of `encode`: a null pointer selects the
encoder's own buffer. -/
inductive Buffer where
  | own
  | supplied (size : Nat)
  deriving DecidableEq, Repr

def Buffer.isOwn : Buffer → Bool
  | .own => true
  | .supplied _ => false

def Encoder.bufferSize (e : Encoder) : Buffer → Nat
  | .own => e.bufsize
  | .supplied size => size

/-- The `while` loop; `acc` is what has been copied so far, its length is `pos`. -/
def encodeLoop (own : Bool) (size : Nat) (m : Msg) :
    Nat → Encoder → List UInt8 → List UInt8 × Encoder
  | 0, e, acc => (acc, e)
  | fuel + 1, e, acc =>
    if acc.length < size then
      if e.toWrite.isEmpty && e.newMsgFlag then (acc, { e with inProgress := none })
      else
        let e := if e.toWrite.isEmpty then runNext e m else e
        -- Zero copy: hand out the message's own memory.
        if acc.isEmpty && own && decide (size ≤ e.toWrite.length) then
          (e.toWrite, { e with toWrite := [] })
        else
          let toCopy := min e.toWrite.length (size - acc.length)
          encodeLoop own size m fuel { e with toWrite := e.toWrite.drop toCopy }
            (acc ++ e.toWrite.take toCopy)
    else (acc, e)

/-- Every turn of the loop writes a byte or sets `new_msg_flag`, so `size + 2`
turns are never used up. -/
def encode (e : Encoder) (b : Buffer) : List UInt8 × Encoder :=
  match e.inProgress with
  | none => ([], e)
  | some m => encodeLoop b.isOwn (e.bufferSize b) m (e.bufferSize b + 2) e []

/-- The v2 encoding of a whole message. -/
def frame (tmpbuf1 : UInt8) (m : Msg) : List UInt8 := header tmpbuf1 m ++ m.data

/-- What is still to be produced for the message in progress. -/
def rest (e : Encoder) : List UInt8 :=
  match e.inProgress with
  | none => []
  | some m => e.toWrite ++ (match e.next with
    | .messageReady => []
    | .sizeReady => m.data)

/-- Holds between calls: the flag tells the two actions apart and an idle encoder
has nothing to write. -/
structure Ready (e : Encoder) : Prop where
  flag : e.newMsgFlag = true ↔ e.next = .messageReady
  idle : e.inProgress = none → e.toWrite = [] ∧ e.next = .messageReady

theorem new_ready (bufsize : Nat) (tmpbuf1 : UInt8) : Ready (Encoder.new bufsize tmpbuf1) :=
  ⟨by simp [Encoder.new], fun _ => ⟨rfl, rfl⟩⟩

variable {e : Encoder} {m : Msg}

theorem rest_of_idle (h : e.inProgress = none) : rest e = [] := by
  simp [rest, h]

theorem rest_of_loaded (h : e.inProgress = some m) :
    rest e = e.toWrite ++ (match e.next with
      | .messageReady => []
      | .sizeReady => m.data) := by
  simp [rest, h]

/-- Taking bytes from `write_pos` on moves them from what is owed to the buffer. -/
theorem take_append_rest_drop (h : e.inProgress = some m) (k : Nat) :
    e.toWrite.take k ++ rest { e with toWrite := e.toWrite.drop k } = rest e := by
  have hdrop : ({ e with toWrite := e.toWrite.drop k } : Encoder).inProgress = some m := h
  rw [rest_of_loaded h, rest_of_loaded hdrop, ← append_assoc, take_append_drop]

/-- Outcome of writing to a buffer of the given size for the message `m`: the
bytes produced and those still owed make up what was owed before, and a buffer
that is not filled means that the message is finished. -/
structure Encoded (own : Bool) (size : Nat) (m : Msg) (owed : List UInt8)
    (e : Encoder) (out : List UInt8) (e' : Encoder) : Prop where
  bytes : out ++ rest e' = owed
  ready : Ready e'
  progress : e'.inProgress = some m ∨ e'.inProgress = none
  short : out.length < size → e'.inProgress = none
  bound : own = false → out.length ≤ size
  bufsize : e'.bufsize = e.bufsize
  tmpbuf1 : e'.tmpbuf1 = e.tmpbuf1

/-- Loop turns left in the worst case: a byte each, one more to start the body. -/
def turns (size : Nat) (e : Encoder) (acc : List UInt8) : Nat :=
  (size - acc.length) + (if e.newMsgFlag then 0 else 1)

/-- Running the pending action when nothing is left to write changes only the
place the bytes come from. -/
theorem runNext_spec (ready : Ready e) (loaded : e.inProgress = some m) (empty : e.toWrite = [])
    (flag : e.newMsgFlag = false) :
    rest (runNext e m) = rest e ∧ Ready (runNext e m) ∧
      (runNext e m).inProgress = some m ∧ (runNext e m).newMsgFlag = true ∧
      (runNext e m).bufsize = e.bufsize ∧ (runNext e m).tmpbuf1 = e.tmpbuf1 := by
  have hnext : e.next = .sizeReady := by
    cases h : e.next with
    | messageReady => have := ready.flag.mpr h; rw [flag] at this; cases this
    | sizeReady => rfl
  have hrun : runNext e m = sizeReady e m := by simp [runNext, hnext]
  have hload : (sizeReady e m).inProgress = some m := loaded
  rw [hrun]
  refine ⟨?_, ⟨by simp [sizeReady], ?_⟩, hload, rfl, rfl, rfl⟩
  · rw [rest_of_loaded hload, rest_of_loaded loaded, hnext, empty]
    simp [sizeReady]
  · intro h
    rw [hload] at h
    cases h

/-- A loaded encoder stays ready whatever part of its bytes is written. -/
theorem Ready.written (h : Ready e) (loaded : e.inProgress = some m) (later : List UInt8) :
    Ready { e with toWrite := later } := by
  refine ⟨h.flag, fun hidle => ?_⟩
  cases loaded.symm.trans hidle

theorem encodeLoop_spec (own : Bool) (size : Nat) (m : Msg) (fuel : Nat) (e : Encoder)
    (acc : List UInt8) (ready : Ready e) (loaded : e.inProgress = some m)
    (hacc : acc.length ≤ size) (hfuel : turns size e acc < fuel) :
    Encoded own size m (acc ++ rest e) e (encodeLoop own size m fuel e acc).1
      (encodeLoop own size m fuel e acc).2 := by
  induction fuel generalizing e acc with
  | zero => omega
  | succ fuel ih =>
    rw [encodeLoop]
    by_cases hpos : acc.length < size
    swap
    · rw [if_neg hpos]
      exact ⟨rfl, ready, Or.inl loaded, fun h => absurd h hpos, fun _ => hacc, rfl, rfl⟩
    rw [if_pos hpos]
    by_cases hdone : e.toWrite = [] ∧ e.newMsgFlag = true
    · have hnext := ready.flag.mp hdone.2
      rw [if_pos (by simpa using hdone)]
      refine ⟨?_, ⟨ready.flag, fun _ => ⟨hdone.1, hnext⟩⟩, Or.inr rfl, fun _ => rfl,
        fun _ => hacc, rfl, rfl⟩
      rw [rest_of_loaded loaded, hnext, hdone.1]
      simp [rest]
    -- The state after the pending action owes the same bytes.
    obtain ⟨e1, he1, hrest, hready, hload, hbuf, htmp, hturns⟩ :
        ∃ e1, (if e.toWrite.isEmpty then runNext e m else e) = e1 ∧ rest e1 = rest e ∧
          Ready e1 ∧ e1.inProgress = some m ∧ e1.bufsize = e.bufsize ∧
          e1.tmpbuf1 = e.tmpbuf1 ∧
          turns size e1 (acc ++ e1.toWrite.take (min e1.toWrite.length (size - acc.length)))
            < turns size e acc := by
      by_cases hempty : e.toWrite = []
      · have hflag : e.newMsgFlag = false := by
          cases h : e.newMsgFlag with
          | true => exact absurd ⟨hempty, h⟩ hdone
          | false => rfl
        obtain ⟨h1, h2, h3, h4, h5, h6⟩ := runNext_spec ready loaded hempty hflag
        refine ⟨runNext e m, by simp [hempty], h1, h2, h3, h5, h6, ?_⟩
        simp only [turns, h4, hflag, length_append, length_take]
        simp only [if_true, Bool.false_eq_true, if_false]
        omega
      · refine ⟨e, by simp [hempty], rfl, ready, loaded, rfl, rfl, ?_⟩
        have hlen : 0 < e.toWrite.length := length_pos_iff.mpr hempty
        simp only [turns, length_append, length_take]
        omega
    rw [if_neg (by simpa using hdone), he1]
    dsimp only
    by_cases hzero : acc = [] ∧ own = true ∧ size ≤ e1.toWrite.length
    · obtain ⟨rfl, rfl, hsize⟩ := hzero
      rw [if_pos (by simpa using hsize), nil_append, ← hrest]
      refine ⟨?_, hready.written hload [], Or.inl hload, fun h => ?_, nofun, hbuf, htmp⟩
      · simp [rest, hload]
      · exact absurd h (Nat.not_lt.mpr hsize)
    · rw [if_neg (by simpa [and_assoc] using hzero)]
      generalize hk : min e1.toWrite.length (size - acc.length) = k at hturns ⊢
      have hacc' : (acc ++ e1.toWrite.take k).length ≤ size := by
        simp only [length_append, length_take]
        omega
      have step := ih _ _ (hready.written hload (e1.toWrite.drop k)) hload hacc'
        (Nat.lt_of_lt_of_le hturns (Nat.le_of_lt_succ hfuel))
      rw [append_assoc, take_append_rest_drop hload, hrest] at step
      exact { step with bufsize := step.bufsize.trans hbuf, tmpbuf1 := step.tmpbuf1.trans htmp }

/-- `encode` on a loaded encoder, whatever buffer it is given. -/
theorem encode_spec (ready : Ready e) (loaded : e.inProgress = some m) (b : Buffer) :
    Encoded b.isOwn (e.bufferSize b) m (rest e) e (encode e b).1 (encode e b).2 := by
  have hfuel : turns (e.bufferSize b) e [] < e.bufferSize b + 2 := by
    unfold turns
    split <;> omega
  have h := encodeLoop_spec b.isOwn (e.bufferSize b) m _ e [] ready loaded (Nat.zero_le _) hfuel
  simpa [encode, loaded] using h

/-- Loading a message into an idle encoder makes its whole frame owed. -/
theorem loadMsg_spec (ready : Ready e) (idle : e.inProgress = none) (m : Msg) :
    ∃ e', loadMsg e m = some e' ∧ Ready e' ∧ e'.inProgress = some m ∧
      rest e' = frame e.tmpbuf1 m ∧ e'.bufsize = e.bufsize ∧ e'.tmpbuf1 = e.tmpbuf1 := by
  have hnext := (ready.idle idle).2
  refine ⟨messageReady { e with inProgress := some m } m, ?_, ⟨by simp [messageReady], ?_⟩,
    rfl, ?_, rfl, rfl⟩
  · simp [loadMsg, idle, runNext, hnext]
  · intro h
    cases h
  · simp [rest, messageReady, frame]

end Uzmq.V2Encoder
