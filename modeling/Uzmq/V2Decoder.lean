import Uzmq.V2Encoder

/-!
# The v2 decoder

`decoder_base_t::decode` driven by the actions of `v2_decoder_t`, and the part of
`stream_engine_t::in_event` that feeds it. The bytes stored through `read_pos`
since the last `next_step` are the list `got`; they lie in `tmpbuf`, in the message
or, for a message built on the receive buffer, in that buffer. Which of them is
chosen only shows in the type of the message. Allocations succeed.

`run` is the decoder fed one byte at a time. Every way of cutting the input into
reads gives the same messages as `run`.
-/

namespace Uzmq.V2Decoder

open List
open Message Wire
open V2Encoder (moreFlag largeFlag commandFlag keyFlag)

inductive Next where
  | flagsReady
  | oneByteSizeReady
  | keySizeReady
  | fourByteSizeReady
  | messageReady
  deriving DecidableEq, Repr

structure Decoder where
  next : Next
  toRead : Nat
  got : List UInt8
  msgFlags : Flags
  inProgress : Msg
  maxmsgsize : Int
  maxSize : Nat
  deriving DecidableEq, Repr

/-- Return codes of the actions and of `decode`: more data needed, a message is
complete, or `EMSGSIZE`. -/
inductive Rc where
  | zero
  | message
  | emsgsize
  deriving DecidableEq, Repr

def Decoder.nextStep (d : Decoder) (toRead : Nat) (next : Next) : Decoder :=
  { d with got := [], toRead := toRead, next := next }

def Decoder.new (bufsize : Nat) (maxmsgsize : Int) : Decoder where
  next := .flagsReady
  toRead := 2
  got := []
  msgFlags := {}
  inProgress := {}
  maxmsgsize := maxmsgsize
  maxSize := bufsize

def maxVsmSize : Nat := 33

/-- `avail` is the number of received bytes from the current address to the end of
the receive buffer. A body that reaches beyond it gets memory of its own. -/
def storageType (size avail : Nat) : MsgType :=
  if avail < size then
    if size ≤ maxVsmSize then .vsm else .lmsg
  else if size < maxVsmSize then .vsm else .zclmsg

def flagsReady (d : Decoder) : Rc × Decoder :=
  let flags := d.got.getD 0 0
  let d := { d with msgFlags :=
    { more := flags &&& moreFlag != 0, command := flags &&& commandFlag != 0 } }
  if flags &&& largeFlag != 0 then
    if flags &&& keyFlag != 0 then (.zero, d.nextStep 4 .keySizeReady)
    else (.zero, d.nextStep 4 .fourByteSizeReady)
  else (.zero, d.nextStep 1 .oneByteSizeReady)

def sizeReady (d : Decoder) (size avail : Nat) : Rc × Decoder :=
  if 0 ≤ d.maxmsgsize ∧ d.maxmsgsize < size then (.emsgsize, d)
  else
    let msg : Msg := { type := storageType size avail, flags := d.msgFlags }
    (.zero, { d with inProgress := msg }.nextStep size .messageReady)

def oneByteSizeReady (d : Decoder) (avail : Nat) : Rc × Decoder :=
  sizeReady d (byteAt d.got 0) avail

def keySizeReady (d : Decoder) (avail : Nat) : Rc × Decoder :=
  sizeReady d (getUint32 d.got * 8) avail

def fourByteSizeReady (d : Decoder) (avail : Nat) : Rc × Decoder :=
  sizeReady d (getUint32 d.got) avail

/-- The body is in place, and the next frame begins. -/
def messageReady (d : Decoder) : Rc × Decoder :=
  (.message, { d with inProgress := { d.inProgress with data := d.got } }.nextStep 2 .flagsReady)

def act (d : Decoder) (avail : Nat) : Rc × Decoder :=
  match d.next with
  | .flagsReady => flagsReady d
  | .oneByteSizeReady => oneByteSizeReady d avail
  | .keySizeReady => keySizeReady d avail
  | .fourByteSizeReady => fourByteSizeReady d avail
  | .messageReady => messageReady d

/-- `while (to_read == 0)`: a size and then an empty body are the longest case. -/
def settle (avail : Nat) : Nat → Decoder → Rc × Decoder
  | 0, d => (.zero, d)
  | fuel + 1, d =>
    if d.toRead = 0 then
      match act d avail with
      | (.zero, d) => settle avail fuel d
      | r => r
    else (.zero, d)

/-- Store bytes at `read_pos`. -/
def Decoder.store (d : Decoder) (bytes : List UInt8) : Decoder :=
  { d with got := d.got ++ bytes, toRead := d.toRead - bytes.length }

/-- The copying loop of `decode`; the result carries the bytes not used. -/
def decodeLoop : Nat → Decoder → List UInt8 → Rc × Decoder × List UInt8
  | 0, d, data => (.zero, d, data)
  | fuel + 1, d, data =>
    if data.isEmpty then (.zero, d, [])
    else
      let toCopy := min d.toRead data.length
      match settle (data.length - toCopy) 3 (d.store (data.take toCopy)) with
      | (.zero, d) => decodeLoop fuel d (data.drop toCopy)
      | (rc, d) => (rc, d, data.drop toCopy)

/-- `get_buffer` offers the rest of a large message in place of the receive buffer. -/
def Decoder.inPlace (d : Decoder) : Bool := decide (d.maxSize ≤ d.toRead)

def Decoder.offered (d : Decoder) : Nat := if d.inPlace then d.toRead else d.maxSize

/-- `decode` on bytes in the receive buffer or, after `get_buffer` offered it, in the
message itself. `none` is the failed assertion `size_ <= to_read`. -/
def decode (inPlace : Bool) (d : Decoder) (data : List UInt8) :
    Option (Rc × Decoder × List UInt8) :=
  if inPlace then
    if data.length ≤ d.toRead then
      let r := settle 0 3 (d.store data)
      some (r.1, r.2, [])
    else none
  else some (decodeLoop (data.length + 1) d data)

inductive Status where
  | decoding (d : Decoder)
  | protocolError
  | assertFailed
  deriving DecidableEq, Repr

/-- `while (insize > 0)` of `in_event`, every message being accepted. -/
def inEventLoop (inPlace : Bool) : Nat → Decoder → List UInt8 → List Msg × Status
  | 0, d, _ => ([], .decoding d)
  | fuel + 1, d, data =>
    if data.isEmpty then ([], .decoding d)
    else match decode inPlace d data with
      | none => ([], .assertFailed)
      | some (.zero, d, _) => ([], .decoding d)
      | some (.emsgsize, _, _) => ([], .protocolError)
      | some (.message, d, data) =>
        let r := inEventLoop inPlace fuel d data
        (d.inProgress :: r.1, r.2)

/-- One read of `in_event`. -/
def inEvent (d : Decoder) (data : List UInt8) : List Msg × Status :=
  inEventLoop d.inPlace (data.length + 1) d data

def feed : Decoder → List (List UInt8) → List Msg × Status
  | d, [] => ([], .decoding d)
  | d, data :: later =>
    match inEvent d data with
    | (msgs, .decoding d) =>
      let r := feed d later
      (msgs ++ r.1, r.2)
    | r => r

/-- Reads of at least one byte and of no more than `get_buffer` offered. -/
def Reads : Decoder → List (List UInt8) → Prop
  | _, [] => True
  | d, data :: later => 0 < data.length ∧ data.length ≤ d.offered ∧
    match (inEvent d data).2 with
    | .decoding d => Reads d later
    | _ => True

instance decidableReads : (d : Decoder) → (reads : List (List UInt8)) → Decidable (Reads d reads)
  | _, [] => isTrue trivial
  | d, data :: later =>
    have : Decidable (match (inEvent d data).2 with
        | .decoding d => Reads d later
        | _ => True) :=
      match (inEvent d data).2 with
      | .decoding d => decidableReads d later
      | .protocolError => isTrue trivial
      | .assertFailed => isTrue trivial
    inferInstanceAs (Decidable (0 < data.length ∧ data.length ≤ d.offered ∧ _))

/-- The decoder fed byte by byte; `none` after `EMSGSIZE`. -/
def run : Decoder → List UInt8 → List Msg × Option Decoder
  | d, [] => ([], some d)
  | d, b :: later =>
    match settle 0 3 (d.store [b]) with
    | (.zero, d) => run d later
    | (.emsgsize, _) => ([], none)
    | (.message, d) =>
      let r := run d later
      (d.inProgress :: r.1, r.2)

/-- Forget where the body of the current message is stored. -/
def Decoder.erase (d : Decoder) : Decoder :=
  { d with inProgress := { d.inProgress with type := .vsm } }

/-- The decoder waits for at least one byte, as it does between calls. -/
def Live (d : Decoder) : Prop := 0 < d.toRead

section Storage
variable {d d' : Decoder} (same : d.erase = d'.erase)
include same

theorem next_eq : d.next = d'.next := by
  change d.erase.next = d'.erase.next
  rw [same]

theorem toRead_eq : d.toRead = d'.toRead := by
  change d.erase.toRead = d'.erase.toRead
  rw [same]

theorem got_eq : d.got = d'.got := by
  change d.erase.got = d'.erase.got
  rw [same]

theorem store_erase (bytes : List UInt8) : (d.store bytes).erase = (d'.store bytes).erase := by
  simp only [Decoder.erase, Decoder.store, Decoder.mk.injEq] at same ⊢
  simp [same]

/-- The received bytes decide what an action does; the room left in the buffer only
decides where a body goes. -/
theorem act_erase (avail avail' : Nat) :
    (act d avail).1 = (act d' avail').1 ∧ (act d avail).2.erase = (act d' avail').2.erase := by
  have hsize : ∀ size, (sizeReady d size avail).1 = (sizeReady d' size avail').1 ∧
      (sizeReady d size avail).2.erase = (sizeReady d' size avail').2.erase := by
    intro size
    simp only [Decoder.erase, Decoder.mk.injEq] at same
    obtain ⟨h1, h2, h3, h4, h5, h6, h7⟩ := same
    simp only [sizeReady, h6]
    split
    · exact ⟨rfl, by simp [Decoder.erase, h1, h2, h3, h4, h5, h6, h7]⟩
    · exact ⟨rfl, by simp [Decoder.erase, Decoder.nextStep, h4, h7]⟩
  have hgot := got_eq same
  unfold act
  rw [next_eq same]
  cases hn : d'.next with
  | flagsReady =>
    simp only [Decoder.erase, Decoder.mk.injEq] at same
    simp only [flagsReady, hgot]
    split
    · split <;> exact ⟨rfl, by simp [Decoder.erase, Decoder.nextStep, same]⟩
    · exact ⟨rfl, by simp [Decoder.erase, Decoder.nextStep, same]⟩
  | oneByteSizeReady => simpa only [oneByteSizeReady, hgot] using hsize _
  | keySizeReady => simpa only [keySizeReady, hgot] using hsize _
  | fourByteSizeReady => simpa only [fourByteSizeReady, hgot] using hsize _
  | messageReady =>
    simp only [Decoder.erase, Decoder.mk.injEq, Msg.mk.injEq] at same
    exact ⟨rfl, by simp [messageReady, Decoder.erase, Decoder.nextStep, same]⟩

end Storage

variable {d d' : Decoder} {r : List Msg × Option Decoder}

theorem settle_erase (same : d.erase = d'.erase) (avail avail' fuel : Nat) :
    (settle avail fuel d).1 = (settle avail' fuel d').1 ∧
      (settle avail fuel d).2.erase = (settle avail' fuel d').2.erase := by
  induction fuel generalizing d d' with
  | zero => exact ⟨rfl, same⟩
  | succ fuel ih =>
    obtain ⟨hrc, hact⟩ := act_erase same avail avail'
    simp only [settle, toRead_eq same]
    split
    · rcases h : act d avail with ⟨rc, e⟩
      rcases h' : act d' avail' with ⟨rc', e'⟩
      rw [h, h'] at hrc hact
      simp only at hrc hact
      subst hrc
      cases rc with
      | zero => exact ih hact
      | message | emsgsize => exact ⟨rfl, hact⟩
    · exact ⟨rfl, same⟩

theorem sizeReady_cases (d : Decoder) (size avail : Nat) :
    (sizeReady d size avail).1 = .emsgsize ∨
      ((sizeReady d size avail).1 = .zero ∧ (sizeReady d size avail).2.next = .messageReady) := by
  unfold sizeReady
  split
  · exact Or.inl rfl
  · exact Or.inr ⟨rfl, rfl⟩

/-- Three turns of the inner loop are enough: it stops with room to read. -/
theorem settle_live (avail : Nat) (d : Decoder) (h : (settle avail 3 d).1 ≠ .emsgsize) :
    Live (settle avail 3 d).2 := by
  have hmessage : ∀ (e : Decoder) (fuel : Nat), e.next = .messageReady →
      Live (settle avail (fuel + 1) e).2 := by
    intro e fuel he
    simp only [settle]
    split
    · simp [act, he, messageReady, Decoder.nextStep, Live]
    · exact Nat.pos_of_ne_zero ‹_›
  have hsize : ∀ (size : Nat), act d avail = sizeReady d size avail → d.toRead = 0 →
      Live (settle avail 3 d).2 := by
    intro size hact h0
    have hs := sizeReady_cases d size avail
    rcases hr : sizeReady d size avail with ⟨rc, e⟩
    rw [hr] at hs hact
    have heq : settle avail 3 d = match (rc, e) with
        | (.zero, d) => settle avail 2 d
        | r => r := by
      rw [settle, if_pos h0, hact]
    rcases hs with hs | ⟨hs, hn⟩
    · simp only at hs
      subst hs
      exact absurd (by rw [heq]) h
    · simp only at hs hn
      subst hs
      rw [heq]
      exact hmessage e 1 hn
  by_cases h0 : d.toRead = 0
  swap
  · have heq : settle avail 3 d = (.zero, d) := by simp [settle, h0]
    rw [heq]
    exact Nat.pos_of_ne_zero h0
  cases hn : d.next with
  | flagsReady =>
    have hstep : ∃ e, flagsReady d = (.zero, e) ∧ 0 < e.toRead := by
      simp only [flagsReady]
      split
      · split <;> exact ⟨_, rfl, by simp [Decoder.nextStep]⟩
      · exact ⟨_, rfl, by simp [Decoder.nextStep]⟩
    obtain ⟨e, he, hpos⟩ := hstep
    have heq : settle avail 3 d = (.zero, e) := by
      rw [settle, if_pos h0, act, hn]
      simp [he, settle, Nat.pos_iff_ne_zero.mp hpos]
    rw [heq]
    exact hpos
  | oneByteSizeReady | keySizeReady | fourByteSizeReady => exact hsize _ (by rw [act, hn]; rfl) h0
  | messageReady => exact hmessage d 2 hn

/-- How `run` goes on after the actions of one step. -/
def resume (r : Rc × Decoder) (later : List UInt8) : List Msg × Option Decoder :=
  match r with
  | (.zero, d) => run d later
  | (.emsgsize, _) => ([], none)
  | (.message, d) => (d.inProgress :: (run d later).1, (run d later).2)

theorem run_cons (d : Decoder) (b : UInt8) (later : List UInt8) :
    run d (b :: later) = resume (settle 0 3 (d.store [b])) later := by
  simp only [run, resume]

@[simp] theorem store_nil (d : Decoder) : d.store [] = d := by
  simp [Decoder.store]

theorem store_store (d : Decoder) (xs ys : List UInt8) :
    (d.store xs).store ys = d.store (xs ++ ys) := by
  simp [Decoder.store, Nat.sub_sub]

theorem settle_of_live (avail fuel : Nat) (h : Live d) : settle avail fuel d = (.zero, d) := by
  cases fuel with
  | zero => rfl
  | succ fuel => rw [settle, if_neg (Nat.pos_iff_ne_zero.mp h)]

/-- Bytes that do not complete what is awaited are only stored. -/
theorem run_append_of_lt (d : Decoder) (bytes later : List UInt8)
    (h : bytes.length < d.toRead) : run d (bytes ++ later) = run (d.store bytes) later := by
  induction bytes generalizing d with
  | nil => simp
  | cons b bytes ih =>
    have hlive : Live (d.store [b]) := by
      simp only [Live, Decoder.store, length_cons, length_nil] at h ⊢
      omega
    have hlen : bytes.length < (d.store [b]).toRead := by
      simp only [Decoder.store, length_cons, length_nil] at h ⊢
      omega
    rw [cons_append, run_cons, settle_of_live 0 3 hlive]
    change run (d.store [b]) (bytes ++ later) = _
    rw [ih _ hlen, store_store, singleton_append]

/-- The last awaited byte makes the actions run. -/
theorem run_append_of_eq (d : Decoder) (bytes later : List UInt8) (live : Live d)
    (h : bytes.length = d.toRead) :
    run d (bytes ++ later) = resume (settle 0 3 (d.store bytes)) later := by
  have hne : bytes ≠ [] := by
    intro hnil
    rw [hnil] at h
    exact absurd live (by simp [Live, ← h])
  obtain ⟨front, b, hb⟩ := (eq_nil_or_concat bytes).resolve_left hne
  rw [concat_eq_append] at hb
  subst hb
  have hlt : front.length < d.toRead := by
    rw [← h]
    simp
  rw [append_assoc, run_append_of_lt d front _ hlt, singleton_append, run_cons, store_store]

/-- Two decoders that differ in the storage of the current message behave alike. -/
def Similar (r r' : List Msg × Option Decoder) : Prop :=
  r.1.map (fun m => (m.data, m.flags)) = r'.1.map (fun m => (m.data, m.flags)) ∧
    r.2.map Decoder.erase = r'.2.map Decoder.erase

theorem Similar.refl (r : List Msg × Option Decoder) : Similar r r := ⟨rfl, rfl⟩

theorem Similar.trans {s t : List Msg × Option Decoder} (h : Similar r s) (h' : Similar s t) :
    Similar r t :=
  ⟨h.1.trans h'.1, h.2.trans h'.2⟩

theorem Similar.isSome_eq {r' : List Msg × Option Decoder} (h : Similar r r') :
    r.2.isSome = r'.2.isSome := by
  rw [← Option.isSome_map, h.2, Option.isSome_map]

section
variable (same : d.erase = d'.erase)
include same

theorem payload_eq :
    (d.inProgress.data, d.inProgress.flags) = (d'.inProgress.data, d'.inProgress.flags) := by
  change (d.erase.inProgress.data, d.erase.inProgress.flags) =
    (d'.erase.inProgress.data, d'.erase.inProgress.flags)
  rw [same]

theorem Similar.cons {r' : List Msg × Option Decoder} (h : Similar r r') :
    Similar (d.inProgress :: r.1, r.2) (d'.inProgress :: r'.1, r'.2) := by
  refine ⟨?_, h.2⟩
  simp only [map_cons, payload_eq same, h.1]

omit same in
theorem resume_similar {r r' : Rc × Decoder} {later : List UInt8} (hrc : r.1 = r'.1)
    (same : r.2.erase = r'.2.erase) (h : Similar (run r.2 later) (run r'.2 later)) :
    Similar (resume r later) (resume r' later) := by
  obtain ⟨rc, e⟩ := r
  obtain ⟨rc', e'⟩ := r'
  obtain rfl : rc = rc' := hrc
  cases rc with
  | zero => exact h
  | message => exact Similar.cons same h
  | emsgsize => exact Similar.refl _

theorem run_similar (bytes : List UInt8) : Similar (run d bytes) (run d' bytes) := by
  induction bytes generalizing d d' with
  | nil => exact ⟨rfl, by simp [run, same]⟩
  | cons b bytes ih =>
    obtain ⟨hrc, hstate⟩ := settle_erase (store_erase same [b]) 0 0 3
    rw [run_cons, run_cons]
    exact resume_similar hrc hstate (ih hstate)

end

/-- The awaited bytes, or some of them, are taken in one piece. -/
theorem run_turn (d : Decoder) {bytes : List UInt8} (later : List UInt8) (live : Live d)
    (hle : bytes.length ≤ d.toRead) (avail : Nat) :
    Similar (run d (bytes ++ later)) (resume (settle avail 3 (d.store bytes)) later) := by
  by_cases hlt : bytes.length < d.toRead
  · have hstore : Live (d.store bytes) := by
      simp only [Live, Decoder.store]
      omega
    rw [settle_of_live avail 3 hstore, resume, ← run_append_of_lt d bytes later hlt]
    exact Similar.refl _
  · rw [run_append_of_eq d bytes later live (by omega)]
    obtain ⟨hrc, hstate⟩ := settle_erase (d := d.store bytes) rfl 0 avail 3
    exact resume_similar hrc hstate (run_similar hstate later)

/-- The last byte completes a size above the limit. -/
def FailsLast (d : Decoder) (bytes : List UInt8) : Prop :=
  ∃ front b, bytes = front ++ [b] ∧ (run d front).2.isSome = true ∧ (run d bytes).2.isSome = false

theorem failsLast_of_turn {bytes : List UInt8} (avail : Nat) (live : Live d) (hne : bytes ≠ [])
    (hle : bytes.length ≤ d.toRead) (h : (settle avail 3 (d.store bytes)).1 = .emsgsize) :
    FailsLast d bytes := by
  obtain ⟨front, b, hb⟩ := (eq_nil_or_concat bytes).resolve_left hne
  rw [concat_eq_append] at hb
  have hlt : front.length < d.toRead := by
    rw [hb, length_append, length_singleton] at hle
    omega
  have hfront := run_append_of_lt d front [] hlt
  rw [append_nil] at hfront
  have hturn := run_turn d [] live hle avail
  rw [append_nil] at hturn
  refine ⟨front, b, hb, by rw [hfront]; rfl, ?_⟩
  rw [hturn.isSome_eq]
  generalize settle avail 3 (d.store bytes) = r at h
  obtain ⟨rc, e⟩ := r
  obtain rfl : rc = .emsgsize := h
  rfl

theorem act_message (d : Decoder) (avail : Nat) (h : (act d avail).1 = .message) :
    (act d avail).2.next = .flagsReady ∧ (act d avail).2.got = [] := by
  have hsize : ∀ size, (sizeReady d size avail).1 ≠ .message := by
    intro size
    rcases sizeReady_cases d size avail with hrc | ⟨hrc, -⟩ <;> rw [hrc] <;> decide
  unfold act at h ⊢
  cases hnext : d.next with
  | flagsReady =>
    simp only [hnext, flagsReady] at h
    split at h
    · split at h <;> cases h
    · cases h
  | oneByteSizeReady => exact absurd (by simpa only [hnext, oneByteSizeReady] using h) (hsize _)
  | keySizeReady => exact absurd (by simpa only [hnext, keySizeReady] using h) (hsize _)
  | fourByteSizeReady => exact absurd (by simpa only [hnext, fourByteSizeReady] using h) (hsize _)
  | messageReady => exact ⟨rfl, rfl⟩

theorem settle_message (avail fuel : Nat) (d : Decoder)
    (h : (settle avail fuel d).1 = .message) :
    (settle avail fuel d).2.next = .flagsReady ∧ (settle avail fuel d).2.got = [] := by
  induction fuel generalizing d with
  | zero => cases h
  | succ fuel ih =>
    simp only [settle] at h ⊢
    split
    · rename_i hzero
      rw [if_pos hzero] at h
      have hact := act_message d avail
      generalize act d avail = r at h hact ⊢
      obtain ⟨rc, e⟩ := r
      cases rc with
      | zero => exact ih e h
      | message => exact hact rfl
      | emsgsize => cases h
    · rename_i hzero
      rw [if_neg hzero] at h
      cases h

theorem run_append (d : Decoder) (xs ys : List UInt8) :
    run d (xs ++ ys) = match run d xs with
      | (msgs, some e) => (msgs ++ (run e ys).1, (run e ys).2)
      | (msgs, none) => (msgs, none) := by
  induction xs generalizing d with
  | nil => simp [run]
  | cons b xs ih =>
    rw [cons_append, run_cons, run_cons]
    rcases settle 0 3 (d.store [b]) with ⟨rc, e⟩
    cases rc with
    | zero => exact ih e
    | emsgsize => rfl
    | message =>
      simp only [resume, ih e]
      rcases run e xs with ⟨msgs, _ | e'⟩ <;> simp

theorem Similar.append {msgs : List Msg} {e : Decoder} {bytes : List UInt8}
    (h : Similar (run d bytes) (msgs, some e)) (later : List UInt8) :
    Similar (run d (bytes ++ later)) (msgs ++ (run e later).1, (run e later).2) := by
  rw [run_append]
  generalize run d bytes = r at h ⊢
  obtain ⟨ms, st⟩ := r
  obtain ⟨hmsgs, hend⟩ := h
  cases st with
  | none => cases hend
  | some d' =>
    obtain ⟨hlater, hending⟩ := run_similar (Option.some.inj hend) later
    refine ⟨?_, hending⟩
    simp only at hmsgs
    simp only [map_append, hmsgs, hlater]

theorem Similar.append_none {msgs : List Msg} {bytes : List UInt8}
    (h : Similar (run d bytes) (msgs, none)) (later : List UInt8) :
    Similar (run d (bytes ++ later)) (msgs, none) := by
  rw [run_append]
  generalize run d bytes = r at h ⊢
  obtain ⟨ms, st⟩ := r
  cases st with
  | none => exact h
  | some d' => cases h.2

theorem Similar.append_left {r' : List Msg × Option Decoder} (h : Similar r r')
    (msgs : List Msg) : Similar (msgs ++ r.1, r.2) (msgs ++ r'.1, r'.2) := by
  refine ⟨?_, h.2⟩
  simp only [map_append, h.1]

/-- The copying loop takes the awaited bytes in one piece and otherwise does what
`run` does, up to the point where it returns. -/
theorem decodeLoop_spec (fuel : Nat) (d : Decoder) (data : List UInt8) (live : Live d)
    (hfuel : data.length < fuel) :
    match decodeLoop fuel d data with
    | (.zero, e, rest) => rest = [] ∧ Live e ∧ Similar (run d data) ([], some e)
    | (.emsgsize, _, rest) => Similar (run d data) ([], none) ∧
        ∃ bytes, data = bytes ++ rest ∧ FailsLast d bytes
    | (.message, e, rest) => Live e ∧ (e.next = .flagsReady ∧ e.got = []) ∧
        ∃ bytes, data = bytes ++ rest ∧ bytes ≠ [] ∧
          Similar (run d bytes) ([e.inProgress], some e) := by
  induction fuel generalizing d data with
  | zero => omega
  | succ fuel ih =>
    by_cases hempty : data = []
    · subst hempty
      exact ⟨rfl, live, Similar.refl _⟩
    obtain ⟨k, hk⟩ : ∃ k, min d.toRead data.length = k := ⟨_, rfl⟩
    have hdata : 0 < data.length := length_pos_iff.mpr hempty
    have hpos : 0 < d.toRead := live
    have htake : (data.take k).length ≤ d.toRead := by
      rw [length_take]
      omega
    have hne : data.take k ≠ [] := by
      rw [← length_pos_iff, length_take]
      omega
    have hsplit : data = data.take k ++ data.drop k := (take_append_drop k data).symm
    have hturn := fun later => run_turn d later live htake (data.length - k)
    have hlive := settle_live (data.length - k) (d.store (data.take k))
    have hfails := failsLast_of_turn (data.length - k) live hne htake
    have hmessage := settle_message (data.length - k) 3 (d.store (data.take k))
    have hcond : ¬ data.isEmpty = true := by simpa using hempty
    have hdrop : (data.drop k).length < fuel := by
      rw [length_drop]
      omega
    rw [decodeLoop, if_neg hcond, hk]
    dsimp only
    generalize settle (data.length - k) 3 (d.store (data.take k)) = r
      at hturn hlive hfails hmessage ⊢
    obtain ⟨rc, e⟩ := r
    cases rc with
    | zero =>
      have step := ih e (data.drop k) (hlive nofun) hdrop
      have hwhole := hturn (data.drop k)
      rw [take_append_drop] at hwhole
      dsimp only
      generalize decodeLoop fuel e (data.drop k) = s at step ⊢
      obtain ⟨rc, f, rest⟩ := s
      cases rc with
      | zero => exact ⟨step.1, step.2.1, hwhole.trans step.2.2⟩
      | emsgsize =>
        obtain ⟨hrun, bytes, hbytes, front, b, rfl, hsome, hnone⟩ := step
        refine ⟨hwhole.trans hrun, data.take k ++ (front ++ [b]), ?_, data.take k ++ front, b,
          (append_assoc ..).symm, ?_, ?_⟩
        · rw [append_assoc, ← hbytes, take_append_drop]
        · rw [(hturn front).isSome_eq]
          exact hsome
        · rw [(hturn (front ++ [b])).isSome_eq]
          exact hnone
      | message =>
        obtain ⟨hf, hstart, bytes, hbytes, -, hrun⟩ := step
        refine ⟨hf, hstart, data.take k ++ bytes, ?_, append_ne_nil_of_left_ne_nil hne _,
          (hturn bytes).trans hrun⟩
        rw [append_assoc, ← hbytes, take_append_drop]
    | message =>
      have hrun := hturn []
      rw [append_nil] at hrun
      exact ⟨hlive nofun, hmessage rfl, data.take k, hsplit, hne, hrun⟩
    | emsgsize =>
      have hrun := hturn (data.drop k)
      rw [take_append_drop] at hrun
      exact ⟨hrun, data.take k, hsplit, hfails rfl⟩

/-- Outcome of a read compared with `run` on the bytes read. -/
def ReadsAs (r : List Msg × Status) (ref : List Msg × Option Decoder) : Prop :=
  match r with
  | (msgs, .decoding e) => Live e ∧ Similar ref (msgs, some e)
  | (msgs, .protocolError) => Similar ref (msgs, none)
  | (_, .assertFailed) => False

theorem inEventLoop_copying (fuel : Nat) (d : Decoder) (data : List UInt8) (live : Live d)
    (hfuel : data.length < fuel) :
    ReadsAs (inEventLoop false fuel d data) (run d data) := by
  induction fuel generalizing d data with
  | zero => omega
  | succ fuel ih =>
    by_cases hempty : data = []
    · subst hempty
      exact ⟨live, Similar.refl _⟩
    have hcond : ¬ data.isEmpty = true := by simpa using hempty
    have step := decodeLoop_spec (data.length + 1) d data live (Nat.lt_succ_self _)
    have hdecode : decode false d data = some (decodeLoop (data.length + 1) d data) := rfl
    rcases hloop : decodeLoop (data.length + 1) d data with ⟨rc, e, rest⟩
    rw [hloop] at step hdecode
    rw [inEventLoop, if_neg hcond, hdecode]
    cases rc with
    | zero => exact step.2
    | emsgsize => exact step.1
    | message =>
      obtain ⟨he, -, bytes, rfl, hne, hrun⟩ := step
      have hrun := hrun.append rest
      have hshorter : 0 < bytes.length := length_pos_iff.mpr hne
      rw [length_append] at hfuel
      have tail := ih e rest he (by omega)
      rcases htail : inEventLoop false fuel e rest with ⟨msgs, st⟩
      rw [htail] at tail
      simp only [htail]
      cases st with
      | decoding e' => exact ⟨tail.1, hrun.trans (tail.2.append_left [e.inProgress])⟩
      | protocolError => exact hrun.trans (tail.append_left [e.inProgress])
      | assertFailed => exact tail

/-- A read straight into the message stays within it, so the assertion holds and
at most one message is completed. -/
theorem inEventLoop_inPlace (fuel : Nat) (d : Decoder) (data : List UInt8) (live : Live d)
    (hne : data ≠ []) (hle : data.length ≤ d.toRead) :
    ReadsAs (inEventLoop true (fuel + 1) d data) (run d data) := by
  have hcond : ¬ data.isEmpty = true := by simpa using hne
  rcases h : settle 0 3 (d.store data) with ⟨rc, e⟩
  have hdecode : decode true d data = some (rc, e, []) := by
    simp [decode, hle, h]
  have hlive : rc ≠ .emsgsize → Live e := by
    have h' := settle_live 0 (d.store data)
    rwa [h] at h'
  have hrun := run_turn d [] live hle 0
  rw [append_nil, h] at hrun
  rw [inEventLoop, if_neg hcond, hdecode]
  cases rc with
  | zero => exact ⟨hlive nofun, hrun⟩
  | emsgsize => exact hrun
  | message =>
    have hstop : inEventLoop true fuel e [] = ([], .decoding e) := by
      cases fuel <;> simp [inEventLoop]
    simp only [hstop]
    exact ⟨hlive nofun, hrun⟩

theorem inEvent_spec (d : Decoder) (data : List UInt8) (live : Live d)
    (hpos : 0 < data.length) (hle : data.length ≤ d.offered) :
    ReadsAs (inEvent d data) (run d data) := by
  unfold inEvent
  cases hplace : d.inPlace with
  | false => exact inEventLoop_copying _ d data live (Nat.lt_succ_self _)
  | true =>
    have hle' : data.length ≤ d.toRead := by simpa [Decoder.offered, hplace] using hle
    exact inEventLoop_inPlace _ d data live (length_pos_iff.mp hpos) hle'

/-- Every cut of the input into reads decodes like `run` on the whole input. -/
theorem feed_spec (d : Decoder) (reads : List (List UInt8)) (live : Live d)
    (ok : Reads d reads) : ReadsAs (feed d reads) (run d reads.flatten) := by
  induction reads generalizing d with
  | nil => exact ⟨live, Similar.refl _⟩
  | cons data later ih =>
    obtain ⟨hpos, hle, hlater⟩ := ok
    have first := inEvent_spec d data live hpos hle
    rcases hin : inEvent d data with ⟨msgs, st⟩
    rw [hin] at first hlater
    simp only [feed, hin, flatten_cons]
    cases st with
    | assertFailed => exact False.elim first
    | protocolError => exact first.append_none later.flatten
    | decoding e =>
      have hrun := first.2.append later.flatten
      have tail := ih e first.1 hlater
      dsimp only
      generalize feed e later = r at tail ⊢
      obtain ⟨msgs', st⟩ := r
      cases st with
      | assertFailed => exact tail
      | protocolError => exact hrun.trans (tail.append_left msgs)
      | decoding f => exact ⟨tail.1, hrun.trans (tail.2.append_left msgs)⟩

theorem new_live (bufsize : Nat) (maxmsgsize : Int) : Live (Decoder.new bufsize maxmsgsize) :=
  Nat.succ_pos 1

end Uzmq.V2Decoder
