import Uzmq.Runs

/-!
# Responses of a SOCKS proxy

`socks_response_decoder_t` asks for the first five bytes of a reply and then, each time, for all
the bytes that follow them, whatever part of these it has got already. The bytes of its buffer
are signed. `in_event` calls `input` until `message_ready`. What `tcp_read` returns is an input,
and the buffer is the list of the bytes read.
-/

namespace Uzmq.SocksResponses

open List Runs

def bufSize : Nat := 4 + 255 + 1 + 2

/-- A byte as `int8_t`. -/
def signed (b : UInt8) : Int := if b.toNat < 128 then b.toNat else b.toNat - 256

def atyp (buf : List UInt8) : UInt8 := buf.getD 3 0

/-- How many bytes `input` asks for. No result stands for a failed assertion. -/
def requested (buf : List UInt8) : Option Nat :=
  if buf.length < 5 then some (5 - buf.length)
  else if atyp buf = 1 then some (3 + 2)
  else if atyp buf = 3 then some ((signed (buf.getD 4 0) + 2) % 2 ^ 64).toNat
  else if atyp buf = 4 then some (15 + 2)
  else none

/-- The checks of `input`. -/
def refuses (buf : List UInt8) : Bool :=
  buf.getD 0 0 != 5 || 2 ≤ buf.length && 8 < signed (buf.getD 1 0) ||
    3 ≤ buf.length && buf.getD 2 0 != 0 ||
    4 ≤ buf.length && atyp buf != 1 && atyp buf != 3 && atyp buf != 4

def messageReady (buf : List UInt8) : Option Bool :=
  if buf.length < 4 then some false
  else if atyp buf = 1 then some (decide (buf.length = 10))
  else if atyp buf = 3 then
    some (decide (4 < buf.length ∧ (buf.length : Int) = (5 + signed (buf.getD 4 0) + 2) % 2 ^ 32))
  else if atyp buf = 4 then some (decide (buf.length = 22))
  else none

/-- The decoder and the bytes that are still to be read from the connection. -/
structure State where
  buf : List UInt8 := []
  pending : List UInt8
  /-- `input` has returned `-1`. -/
  refused : Bool := false
  /-- An assertion has failed, or there was a write past the buffer. -/
  failed : Bool := false

/-- `input`, if `tcp_read` returns `k` bytes. -/
def input (s : State) (k : Nat) : State :=
  if bufSize < s.buf.length + k then { s with failed := true }
  else
    { s with
      buf := s.buf ++ s.pending.take k, pending := s.pending.drop k
      refused := refuses (s.buf ++ s.pending.take k) }

/-- `in_event`, as long as the message is not ready. -/
def step (s : State) (k : Nat) : Option State :=
  if s.failed || s.refused then none
  else
    match messageReady s.buf, requested s.buf with
    | some true, _ => none
    | some false, some n =>
      if 0 < k ∧ k ≤ n ∧ k ≤ s.pending.length then some (input s k) else none
    | _, _ => some { s with failed := true }

/-- Version, code, reserved byte and type of the address, then the address and the port. A name
starts with its length. -/
def Reply (reply : List UInt8) : Prop :=
  ∃ rep a tail, reply = 5 :: rep :: 0 :: a :: tail ∧ rep.toNat ≤ 8 ∧
    (a = 1 ∧ tail.length = 4 + 2 ∨ a = 3 ∧ tail.length = 1 + (tail.getD 0 0).toNat + 2 ∨
      a = 4 ∧ tail.length = 16 + 2)

/-- The length of a name is not negative as `int8_t`. -/
def Short (reply : List UInt8) : Prop := atyp reply = 3 → (reply.getD 4 0).toNat < 128

/-- After a part of the bytes that follow the first five, only bytes of the reply are returned. -/
def Within (reply : List UInt8) (s : State) (k : Nat) : Prop :=
  5 < s.buf.length → s.buf.length + k ≤ reply.length
  deriving Decidable

structure Decodes (reply later : List UInt8) (s : State) : Prop where
  sound : s.failed = false ∧ s.refused = false
  consumed : s.buf <+: reply ∧ s.buf ++ s.pending = reply ++ later
  fits : s.buf.length ≤ bufSize
  ready : messageReady s.buf = some (decide (s.buf = reply))
  next : s.buf ≠ reply → ∃ n, 0 < n ∧ requested s.buf = some n ∧
    ∀ k, 0 < k → k ≤ n → Within reply s k → ∃ t, step s k = some t

/-- `m` bytes of the reply have been read. -/
abbrev reading (reply later : List UInt8) (m : Nat) : State :=
  { buf := reply.take m, pending := reply.drop m ++ later }

section Replies
variable {reply later : List UInt8} {m k : Nat}

theorem signed_eq {b : UInt8} (h : b.toNat < 128) : signed b = b.toNat := if_pos h

section
variable (h : Reply reply)
include h

theorem Reply.length_le : reply.length ≤ bufSize := by
  obtain ⟨rep, a, tail, rfl, -, ha⟩ := h
  have := (tail.getD 0 0).toNat_lt
  simp only [length_cons, bufSize]
  omega

theorem Reply.accepted (hm : 0 < m) : refuses (reply.take m) = false := by
  obtain ⟨rep, a, tail, rfl, hrep, ha⟩ := h
  have hsigned : signed rep ≤ 8 := by
    rw [signed_eq (by omega)]
    omega
  match m with
  | 1 | 2 | 3 => simp [refuses, hsigned]
  | m + 4 =>
    simp only [refuses, atyp]
    rcases ha with ⟨rfl, -⟩ | ⟨rfl, -⟩ | ⟨rfl, -⟩ <;> simp [hsigned]

variable (hshort : Short reply)
include hshort

theorem Reply.ready (hm : m ≤ reply.length) :
    messageReady (reply.take m) = some (decide (m = reply.length)) := by
  have hlength : (reply.take m).length = m := length_take_of_le hm
  obtain ⟨rep, a, tail, rfl, -, ha⟩ := h
  match m with
  | 0 | 1 | 2 | 3 => simp [messageReady]
  | m + 4 =>
    rw [messageReady, hlength, if_neg (by omega)]
    simp only [atyp, take_succ_cons, getD_cons_succ, getD_cons_zero, length_cons]
    rcases ha with ⟨rfl, h⟩ | ⟨rfl, h⟩ | ⟨rfl, h⟩
    · simp [h]
    · have hn : (tail.getD 0 0).toNat < 128 := hshort rfl
      rw [if_neg (by decide), if_pos rfl]
      cases m with
      | zero => simp [h]
      | succ m =>
        have hget : (tail.take (m + 1)).getD 0 0 = tail.getD 0 0 := by cases tail <;> rfl
        simp only [hget, signed_eq hn, Option.some.injEq, decide_eq_decide]
        omega
    · simp [h]

theorem Reply.requests (hm : m < reply.length) :
    ∃ n, 0 < n ∧ requested (reply.take m) = some n ∧ (m ≤ 5 → m + n ≤ reply.length) := by
  have hlength : (reply.take m).length = m := length_take_of_le (by omega)
  obtain ⟨rep, a, tail, rfl, -, ha⟩ := h
  simp only [length_cons] at hm ⊢
  by_cases hfirst : m < 5
  · rw [requested, hlength, if_pos hfirst]
    exact ⟨_, by omega, rfl, by omega⟩
  obtain ⟨m, rfl⟩ := Nat.exists_eq_add_of_le' (Nat.le_of_not_lt hfirst)
  rw [requested, hlength, if_neg (by omega)]
  simp only [atyp, take_succ_cons, getD_cons_succ, getD_cons_zero]
  rcases ha with ⟨rfl, h⟩ | ⟨rfl, h⟩ | ⟨rfl, h⟩
  · exact ⟨5, by omega, rfl, by omega⟩
  · have hn : (tail.getD 0 0).toNat < 128 := hshort rfl
    have hget : (tail.take (m + 1)).getD 0 0 = tail.getD 0 0 := by cases tail <;> rfl
    rw [if_neg (by decide), if_pos rfl, hget, signed_eq hn]
    exact ⟨_, by omega, rfl, by omega⟩
  · exact ⟨17, by omega, rfl, by omega⟩

/-- A call of `input` goes on in the reply. -/
theorem Reply.step_eq {n : Nat} (hm : m < reply.length) (hpos : 0 < k)
    (hn : requested (reply.take m) = some n) (hkn : k ≤ n)
    (hwithin : Within reply (reading reply later m) k) : m + k ≤ reply.length ∧
      step (reading reply later m) k = some (reading reply later (m + k)) := by
  have hsize := h.length_le
  have hlength : (reply.take m).length = m := length_take_of_le (by omega)
  have hk : m + k ≤ reply.length := by
    obtain ⟨n', -, hn', hfirst⟩ := h.requests hshort hm
    cases hn.symm.trans hn'
    by_cases hle : m ≤ 5
    · have := hfirst hle
      omega
    · simpa [Within, hlength, Nat.lt_of_not_le hle] using hwithin
  have hready := h.ready hshort (Nat.le_of_lt hm)
  rw [decide_eq_false (by omega)] at hready
  have hdrop : (reply.drop m ++ later).take k = (reply.drop m).take k :=
    take_append_of_le_length (by rw [length_drop]; omega)
  have hrest : (reply.drop m ++ later).drop k = reply.drop (m + k) ++ later := by
    rw [drop_append_of_le_length (by rw [length_drop]; omega), drop_drop]
  have haccepted := h.accepted (m := m + k) (by omega)
  rw [take_add] at haccepted
  refine ⟨hk, ?_⟩
  simp only [step, reading, Bool.or_self, Bool.false_eq_true, if_false, hready, hn]
  rw [if_pos ⟨hpos, hkn, by rw [length_append, length_drop]; omega⟩]
  simp only [input, hlength, if_neg (show ¬ bufSize < m + k by omega), hdrop, hrest, haccepted,
    take_add]

/-- As long as a name is shorter than 128 bytes, and after a partial read of the rest `tcp_read`
returns bytes of the reply only, exactly the reply is consumed, within the buffer, and the message
is ready after its last byte. -/
theorem decodes_of_reach {s : State}
    (hs : Reach (· = reading reply later 0) (Within reply) step s) :
    Decodes reply later s := by
  obtain ⟨m, hm, rfl⟩ : ∃ m ≤ reply.length, s = reading reply later m := by
    apply hs.invariant (fun s hs => ⟨0, Nat.zero_le _, hs⟩)
    rintro _ k t ⟨m, hm, rfl⟩ hwithin hstep
    have hready := h.ready hshort hm
    by_cases hend : m = reply.length
    · rw [decide_eq_true hend] at hready
      simp [step, hready] at hstep
    have hlt : m < reply.length := Nat.lt_of_le_of_ne hm hend
    obtain ⟨n, -, hn, -⟩ := h.requests hshort hlt
    by_cases hkn : 0 < k ∧ k ≤ n
    · obtain ⟨hk, hnext⟩ := h.step_eq hshort hlt hkn.1 hn hkn.2 hwithin
      cases hnext.symm.trans hstep
      exact ⟨m + k, hk, rfl⟩
    · rw [decide_eq_false hend] at hready
      simp [step, hready, hn, ← and_assoc, hkn] at hstep
  have hlength : (reply.take m).length = m := length_take_of_le hm
  have hsize := h.length_le
  have hwhole : reply.take m = reply ↔ m = reply.length := by
    constructor
    · intro heq
      rw [← hlength, heq]
    · rintro rfl
      exact take_length
  have htaken := take_prefix m reply
  refine ⟨⟨rfl, rfl⟩, ⟨htaken, ?_⟩, ?_, ?_, ?_⟩
  · rw [← append_assoc, take_append_drop]
  · rw [hlength]
    omega
  · simp only [h.ready hshort hm, hwhole]
  · rw [Ne, hwhole]
    intro hne
    have hlt : m < reply.length := Nat.lt_of_le_of_ne hm hne
    obtain ⟨n, hpos, hn, -⟩ := h.requests hshort hlt
    refine ⟨n, hpos, hn, ?_⟩
    intro k hk hkn hwithin
    exact ⟨_, (h.step_eq hshort hlt hk hn hkn hwithin).2⟩

end

end Replies

def ipv4Reply : List UInt8 := [5, 0, 0, 1, 127, 0, 0, 1, 0, 80]

theorem ipv4Reply_valid : Reply ipv4Reply := ⟨0, 1, _, rfl, by decide, by decide⟩

theorem ipv4Reply_decodes :
    ∃ s, Reach (· = reading ipv4Reply [7, 8, 9] 0) (Within ipv4Reply) step s ∧
      Decodes ipv4Reply [7, 8, 9] s ∧ s.pending = [7, 8, 9] := by
  refine Reach.of_exec_left (s := reading ipv4Reply [7, 8, 9] 0) (Within ipv4Reply) step [5, 3, 2]
    ?_ rfl fun s hs => decodes_of_reach ipv4Reply_valid (fun h => by cases h) hs
  decide +kernel

def nameReply : List UInt8 := [5, 0, 0, 3, 200] ++ replicate 202 97

/-- The last read returns the end of the reply and three bytes of the application, and the message
is never ready. For a name of 200 bytes almost `2 ^ 64` bytes are asked for. -/
theorem reads_past_reply :
    (∃ s, Reach (· = reading ipv4Reply [7, 8, 9] 0) Always step s ∧ s.buf = ipv4Reply ++ [7, 8, 9] ∧
        messageReady s.buf = some false) ∧
      Reply ipv4Reply ∧ Reply nameReply ∧
      ∃ s, Reach (· = reading nameReply (replicate 99 7) 0) Always step s ∧ s.failed = true := by
  refine ⟨?_, ipv4Reply_valid, ⟨0, 3, _, rfl, by decide, by decide +kernel⟩, ?_⟩
  · refine Reach.of_exec (s := reading ipv4Reply [7, 8, 9] 0) Always step [5, 3, 5] ?_ rfl
    decide +kernel
  · refine Reach.of_exec (s := reading nameReply (replicate 99 7) 0) Always step [5, 300] ?_ rfl
    decide +kernel

end Uzmq.SocksResponses
