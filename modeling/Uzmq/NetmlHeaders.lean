import Uzmq.NetmlWrite

/-!
# Headers and table indices of NetML packets

The way of a packet from `tcp_input` to the table of nodes in `tcp_receive_data`, and
the way of a node id from `lwip_send_netml` to the table in `tcp_write_netml`. Both
take their index from outside.

A packet is a chain of buffers. `tcp_input` looks at the TCP header in the first one
and skips the options, of which a part may be in the second.
-/

namespace Uzmq.NetmlHeaders

open NetmlWrite

def uint16Max : Nat := 65535

/-- The contents of the buffers of a packet; `tot_len` is a `u16_t`. -/
structure Packet where
  first : List UInt8
  rest : List (List UInt8)
  small : first.length + rest.flatten.length ≤ uint16Max
deriving DecidableEq

namespace Packet
variable (p : Packet)

def totLen : Nat := p.first.length + p.rest.flatten.length

/-- The byte that holds the header length and the offset flags. -/
def offsetByte : Nat := (p.first.getD 12 0).toNat

def hdrlenBytes : Nat := p.offsetByte / 16 * 4

def offsetFlags : Nat := p.offsetByte % 16

def isBypass : Bool := p.offsetFlags = 8

def isCtl : Bool := p.offsetFlags = 0 || p.offsetFlags = 1

/-- The packet behind the TCP header. The last case cannot occur, the header is not
longer than the packet. -/
def removeHeader : Option Packet :=
  if p.hdrlenBytes ≤ p.first.length then
    some ⟨p.first.drop p.hdrlenBytes, p.rest, by
      have := p.small
      rw [List.length_drop]
      omega⟩
  else
    match h : p.rest with
    | next :: later =>
      let opt2len := p.hdrlenBytes - p.first.length
      if next.length < opt2len then none
      else some ⟨[], next.drop opt2len :: later, by
        have := p.small
        simp only [h, List.flatten_cons, List.length_append, List.length_drop,
          List.length_nil] at this ⊢
        omega⟩
    | [] => none

end Packet

/-- The part of `tcp_input` before the packet is passed to `tcp_netml_input`; all
other packets give `none`. -/
def tcpInput (broadcast : Bool) (p : Packet) : Option Packet :=
  if p.first.length < tcpHlen then none
  else if broadcast then none
  else if p.hdrlenBytes < tcpHlen ∨ p.totLen < p.hdrlenBytes then none
  else if p.isBypass || p.isCtl then none
  else p.removeHeader

/-- What becomes of data that the application had refused before. -/
inductive Refused where
  | nothing
  | accepted
  | again
  | aborted
deriving DecidableEq

/-- What is done with the internal header: how many bytes the packet holds where it is
read, the length of the segment that is left, and the index into `internal_conn`. -/
structure Access where
  room : Nat
  tcplen : Option Nat := none
  index : Option Int := none

/-- The source id in the internal header behind `hdrlen` bytes of the first buffer. -/
def srcId (p : Packet) (hdrlen : Nat) : Nat :=
  (p.first.getD (hdrlen + 2) 0).toNat * 256 + (p.first.getD (hdrlen + 3) 0).toNat

/-- The packet is given up for the sake of refused data. -/
def drops : Refused → Nat → Bool
  | .nothing, _ => false
  | .accepted, _ => false
  | .again, tcplen => 0 < tcplen
  | .aborted, _ => true

/-- The header is read through the payload pointer, and `pbuf_remove_header` aborts if it
was not in the first buffer. A connection is found, with or without refused data. -/
def tcpNetmlInput (refused : Refused) (p : Packet) : Access :=
  if p.first.length < 12 then { room := p.totLen }
  else
    let tcplen := (p.totLen + 2 ^ 16 - 12) % 2 ^ 16
    { room := p.totLen
      tcplen := some tcplen
      index := if drops refused tcplen then none else some (srcId p 0 - 8 : Int) }

/-- The index lies in the table, the header in the packet, and the length is what is
left of it. -/
structure Access.Safe (a : Access) : Prop where
  header : 12 ≤ a.room
  length : ∀ len ∈ a.tcplen, len + 12 = a.room
  index : ∀ i ∈ a.index, 0 ≤ i ∧ i < (netmlMaxNode : Int)

/-- The index that `tcp_write_netml` uses for a node id given to `lwip_send_netml`,
if it gets that far. The request holds the id as a `u16_t`. -/
def sendIndex (pcb : Pcb) (isBypass : Bool) (len : Nat) (remoteId : Int) : Option Nat :=
  if isBypass = false ∧ pcb.localId ≠ 0xffff ∧ tcpWriteChecks pcb len = some .ok then
    some (remoteId % 2 ^ 16).toNat
  else none

/-- The packet holds an internal header, whose source id is that of a node unless the
header is not in the first buffer or refused data is in the way. -/
def Proper (refused : Refused) (p : Packet) : Prop :=
  p.hdrlenBytes + 12 ≤ p.totLen ∧
    (p.first.length < p.hdrlenBytes + 12 ∨ refused = .aborted ∨
      (refused = .again ∧ p.hdrlenBytes + 12 < p.totLen) ∨
      8 ≤ srcId p p.hdrlenBytes ∧ srcId p p.hdrlenBytes < 8 + netmlMaxNode)

/-- What is left of the packet, and of its first buffer unless the header covers it. -/
theorem Packet.removeHeader_spec {p q : Packet} (h : p.removeHeader = some q) :
    q.totLen + p.hdrlenBytes = p.totLen ∧ q.first = p.first.drop p.hdrlenBytes := by
  unfold Packet.removeHeader at h
  split at h
  · cases h
    simp only [Packet.totLen, List.length_drop]
    exact ⟨by omega, trivial⟩
  split at h
  · rename_i hrest
    dsimp only at h
    split at h
    · cases h
    · cases h
      simp only [Packet.totLen, hrest, List.flatten_cons, List.length_append, List.length_drop,
        List.length_nil]
      exact ⟨by omega, (List.drop_eq_nil_of_le (by omega)).symm⟩
  · cases h

theorem removeHeader_of_tcpInput {broadcast : Bool} {p q : Packet}
    (h : tcpInput broadcast p = some q) : p.removeHeader = some q := by
  obtain ⟨-, h⟩ := Option.ite_none_left_eq_some.mp h
  obtain ⟨-, h⟩ := Option.ite_none_left_eq_some.mp h
  obtain ⟨-, h⟩ := Option.ite_none_left_eq_some.mp h
  obtain ⟨-, h⟩ := Option.ite_none_left_eq_some.mp h
  exact h

theorem drops_iff {refused : Refused} {tcplen : Nat} :
    drops refused tcplen = true ↔ refused = .aborted ∨ refused = .again ∧ 0 < tcplen := by
  cases refused <;> simp [drops]

/-- What is done with the packet behind the TCP header is safe exactly if it holds an
internal header and, if its id is looked at, this is the id of a node. -/
theorem safe_tcpNetmlInput_iff (refused : Refused) (q : Packet) :
    (tcpNetmlInput refused q).Safe ↔
      12 ≤ q.totLen ∧
        (q.first.length < 12 ∨ refused = .aborted ∨ (refused = .again ∧ 12 < q.totLen) ∨
          8 ≤ srcId q 0 ∧ srcId q 0 < 8 + netmlMaxNode) := by
  by_cases hfirst : q.first.length < 12
  · rw [tcpNetmlInput, if_pos hfirst]
    constructor
    · intro hsafe
      exact ⟨hsafe.header, .inl hfirst⟩
    · rintro ⟨hheader, -⟩
      exact ⟨hheader, by simp, by simp⟩
  have hheader : 12 ≤ q.totLen := Nat.le_trans (Nat.not_lt.mp hfirst) (Nat.le_add_right _ _)
  have hlength : (q.totLen + 2 ^ 16 - 12) % 2 ^ 16 = q.totLen - 12 := by
    have hsmall : q.totLen ≤ 65535 := q.small
    omega
  simp only [tcpNetmlInput, if_neg hfirst, hlength]
  constructor
  · rintro ⟨-, -, hindex⟩
    refine ⟨hheader, .inr ?_⟩
    by_cases hdrops : drops refused (q.totLen - 12) = true
    · rcases drops_iff.mp hdrops with haborted | ⟨hagain, hmore⟩
      · exact .inl haborted
      · exact .inr (.inl ⟨hagain, by omega⟩)
    · have hin := hindex (srcId q 0 - 8) (if_neg hdrops)
      exact .inr (.inr (by omega))
  · rintro ⟨-, hsource⟩
    refine ⟨hheader, ?_, ?_⟩
    · rintro _ ⟨⟩
      change q.totLen - 12 + 12 = q.totLen
      omega
    · intro i hi
      obtain ⟨hkept, ⟨⟩⟩ := Option.ite_none_left_eq_some.mp hi
      rw [drops_iff] at hkept
      rcases hsource with hshort | haborted | ⟨hagain, hmore⟩ | hnode
      · exact absurd hshort hfirst
      · exact absurd (.inl haborted) hkept
      · exact absurd (.inr ⟨hagain, by omega⟩) hkept
      · omega

theorem safe_iff_proper {broadcast : Bool} {p q : Packet} (hq : tcpInput broadcast p = some q)
    (refused : Refused) : (tcpNetmlInput refused q).Safe ↔ Proper refused p := by
  obtain ⟨htotal, hfirst⟩ := Packet.removeHeader_spec (removeHeader_of_tcpInput hq)
  have hsource : srcId q 0 = srcId p p.hdrlenBytes := by simp [srcId, hfirst]
  have hlength : q.first.length < 12 ↔ p.first.length < p.hdrlenBytes + 12 := by
    rw [hfirst, List.length_drop]
    omega
  have hheader : 12 ≤ q.totLen ↔ p.hdrlenBytes + 12 ≤ p.totLen := by omega
  have hmore : 12 < q.totLen ↔ p.hdrlenBytes + 12 < p.totLen := by omega
  rw [safe_tcpNetmlInput_iff, hheader, hmore, hsource, hlength]
  rfl

/-- Both ways to the table are safe exactly for proper packets and for node ids below
the size of the table. -/
theorem indices_safe_iff (broadcast : Bool) (refused : Refused) (p : Packet) (pcb : Pcb)
    (isBypass : Bool) (len : Nat) (remoteId : Int) :
    ((∀ q, tcpInput broadcast p = some q → (tcpNetmlInput refused q).Safe) ↔
        ((tcpInput broadcast p).isSome → Proper refused p)) ∧
      ((∀ i, sendIndex pcb isBypass len remoteId = some i → i < netmlMaxNode) ↔
        (isBypass = false → pcb.localId ≠ 0xffff → Allowed pcb len →
          remoteId % 2 ^ 16 < (netmlMaxNode : Int))) := by
  constructor
  · rcases hq : tcpInput broadcast p with _ | q
    · simp
    · simpa using safe_iff_proper hq refused
  · rw [← tcpWriteChecks_ok_iff]
    constructor
    · intro h hbypass hknown hchecks
      have hindex := h _ (if_pos ⟨hbypass, hknown, hchecks⟩)
      omega
    · intro h i hi
      obtain ⟨⟨hbypass, hknown, hchecks⟩, ⟨⟩⟩ := Option.ite_none_right_eq_some.mp hi
      have hindex := h hbypass hknown hchecks
      omega

/-- A TCP header of 20 bytes with the mark of cold data, followed by the given bytes. -/
def coldPacket (data : List UInt8) (h : data.length ≤ 65515 := by decide) : Packet where
  first := [0, 0, 0, 0, 0, 0, 0, 0, 0, 0, 0, 0, 0x54, 0, 0, 0, 0, 0, 0, 0] ++ data
  rest := []
  small := by
    simp only [List.length_append, List.length_cons, List.length_nil, List.flatten_nil, uint16Max]
    omega

/-- A source id of 0 gives the index -8, in a packet without an internal header it is read
behind the packet, and the node id 128 gives an index behind the table. -/
theorem indices_unsafe :
    ¬ (∀ q, tcpInput false (coldPacket [0, 0, 0, 0, 0, 0, 0, 0, 0, 0, 0, 0]) = some q →
      (tcpNetmlInput .nothing q).Safe) ∧
    ¬ (∀ q, tcpInput false (coldPacket []) = some q →
      (tcpNetmlInput .nothing q).Safe) ∧
    ¬ (∀ i, sendIndex (opened 1000) false 1 128 = some i → i < netmlMaxNode) := by
  refine ⟨?_, ?_, ?_⟩
  · intro h
    have hsafe := h ⟨[0, 0, 0, 0, 0, 0, 0, 0, 0, 0, 0, 0], [], by decide⟩ (by decide)
    exact absurd (hsafe.index (-8) (by decide)) (by decide)
  · intro h
    have hsafe := h ⟨[], [], by decide⟩ (by decide)
    exact absurd hsafe.header (by decide)
  · intro h
    exact absurd (h 128 (by decide)) (by decide)

end Uzmq.NetmlHeaders
