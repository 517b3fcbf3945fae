import Uzmq.V2Decoder

/-!
# Calls of the decoder, one after the other

A caller of `decode` takes the message out of the decoder or leaves it there; until the next size
has been read the decoder does not look at it. Each call does what the decoder that is fed byte by
byte does with the bytes it consumes.
-/

namespace Uzmq.V2Decoder

open List Message

variable {d d' e : Decoder} {r r' : List Msg × Option Decoder} {decoded : List (List UInt8 × Flags)}
  {bytes data rest : List UInt8} {fuel : Nat}

section Clearing

/-- Forget the message in the decoder, except for the flags of one whose body is being read. -/
def Decoder.clear (d : Decoder) : Decoder :=
  { d with inProgress := if d.next = .messageReady then { flags := d.inProgress.flags } else {} }

/-- Two decoders that differ in a message that has been passed on. -/
structure Alike (d d' : Decoder) : Prop where
  next : d.next = d'.next
  toRead : d.toRead = d'.toRead
  got : d.got = d'.got
  msgFlags : d.msgFlags = d'.msgFlags
  flags : d.next = .messageReady → d.inProgress.flags = d'.inProgress.flags
  maxmsgsize : d.maxmsgsize = d'.maxmsgsize
  maxSize : d.maxSize = d'.maxSize

theorem clear_eq_iff : d.clear = d'.clear ↔ Alike d d' := by
  constructor
  · intro h
    simp only [Decoder.clear, Decoder.mk.injEq] at h
    obtain ⟨hnext, htoRead, hgot, hmsgFlags, hinProgress, hmaxmsgsize, hmaxSize⟩ := h
    refine ⟨hnext, htoRead, hgot, hmsgFlags, ?_, hmaxmsgsize, hmaxSize⟩
    intro hready
    rw [if_pos hready, if_pos (hnext ▸ hready)] at hinProgress
    exact (Msg.mk.inj hinProgress).2.1
  · intro h
    simp only [Decoder.clear, Decoder.mk.injEq]
    refine ⟨h.next, h.toRead, h.got, h.msgFlags, ?_, h.maxmsgsize, h.maxSize⟩
    rw [← h.next]
    split
    · rw [h.flags ‹_›]
    · rfl

theorem clear_of_erase (h : d.erase = d'.erase) : d.clear = d'.clear := by
  simp only [Decoder.erase, Decoder.mk.injEq, Msg.mk.injEq] at h
  obtain ⟨hnext, htoRead, hgot, hmsgFlags, ⟨-, hflags, -, -⟩, hmaxmsgsize, hmaxSize⟩ := h
  exact clear_eq_iff.mpr ⟨hnext, htoRead, hgot, hmsgFlags, fun _ => hflags, hmaxmsgsize, hmaxSize⟩

/-- Between messages the one in the decoder does not matter. -/
theorem clear_inProgress (h : d.next = .flagsReady) (m : Msg) :
    { d with inProgress := m }.clear = d.clear := by
  simp [Decoder.clear, h]

/-- An action or a step of two decoders that are alike. -/
structure SameOutcome (r r' : Rc × Decoder) : Prop where
  rc : r.1 = r'.1
  alike : Alike r.2 r'.2
  content : r.1 = .message → r.2.inProgress.content = r'.2.inProgress.content

theorem Alike.sizeReady (h : Alike d d') (size avail avail' : Nat) :
    SameOutcome (sizeReady d size avail) (sizeReady d' size avail') := by
  unfold V2Decoder.sizeReady
  rw [h.maxmsgsize]
  split
  · exact ⟨rfl, h, nofun⟩
  · exact ⟨rfl, ⟨rfl, rfl, rfl, h.msgFlags, fun _ => h.msgFlags, rfl, h.maxSize⟩, nofun⟩

theorem Alike.act (h : Alike d d') (avail avail' : Nat) :
    SameOutcome (act d avail) (act d' avail') := by
  unfold V2Decoder.act
  rw [← h.next]
  cases hnext : d.next with
  | flagsReady =>
    simp only [flagsReady, ← h.got]
    split
    · split <;>
        exact ⟨rfl, ⟨rfl, rfl, rfl, rfl, by rintro ⟨⟩, h.maxmsgsize, h.maxSize⟩, by simp⟩
    · exact ⟨rfl, ⟨rfl, rfl, rfl, rfl, by rintro ⟨⟩, h.maxmsgsize, h.maxSize⟩, by simp⟩
  | oneByteSizeReady =>
    simp only [oneByteSizeReady, ← h.got]
    exact h.sizeReady _ avail avail'
  | keySizeReady =>
    simp only [keySizeReady, ← h.got]
    exact h.sizeReady _ avail avail'
  | fourByteSizeReady =>
    simp only [fourByteSizeReady, ← h.got]
    exact h.sizeReady _ avail avail'
  | messageReady =>
    have hflags := h.flags hnext
    refine ⟨rfl, ⟨rfl, rfl, rfl, h.msgFlags, by rintro ⟨⟩, h.maxmsgsize, h.maxSize⟩, fun _ => ?_⟩
    exact Prod.ext h.got hflags

theorem Alike.settle (h : Alike d d') (avail avail' fuel : Nat) :
    SameOutcome (settle avail fuel d) (settle avail' fuel d') := by
  induction fuel generalizing d d' with
  | zero => exact ⟨rfl, h, by rintro ⟨⟩⟩
  | succ fuel ih =>
    have hact := h.act avail avail'
    simp only [V2Decoder.settle, ← h.toRead]
    split
    · generalize V2Decoder.act d avail = r at hact ⊢
      generalize V2Decoder.act d' avail' = r' at hact ⊢
      obtain ⟨rc, e⟩ := r
      obtain ⟨rc', e'⟩ := r'
      obtain rfl : rc = rc' := hact.rc
      cases rc with
      | zero => exact ih hact.alike
      | message | emsgsize => exact hact
    · exact ⟨rfl, h, by simp⟩

theorem Alike.store (h : Alike d d') (bytes : List UInt8) :
    Alike (d.store bytes) (d'.store bytes) :=
  { h with toRead := congrArg (· - bytes.length) h.toRead, got := congrArg (· ++ bytes) h.got }

/-- `whole` is a run that gave `decoded` before it went on like `rest`. -/
structure Continues (whole : List Msg × Option Decoder) (decoded : List (List UInt8 × Flags))
    (rest : List Msg × Option Decoder) : Prop where
  messages : whole.1.map Msg.content = decoded ++ rest.1.map Msg.content
  ending : whole.2.map Decoder.clear = rest.2.map Decoder.clear

theorem Continues.refl (r : List Msg × Option Decoder) : Continues r [] r := ⟨rfl, rfl⟩

theorem Continues.trans {r'' : List Msg × Option Decoder} {decoded' : List (List UInt8 × Flags)}
    (h : Continues r decoded r') (h' : Continues r' decoded' r'') :
    Continues r (decoded ++ decoded') r'' := by
  refine ⟨?_, h.ending.trans h'.ending⟩
  rw [h.messages, h'.messages, append_assoc]

theorem Similar.continues (h : Similar r r') : Continues r [] r' := by
  obtain ⟨msgs, d⟩ := r
  obtain ⟨msgs', d'⟩ := r'
  obtain ⟨hmessages, hending⟩ := h
  refine ⟨hmessages, ?_⟩
  cases d with
  | none =>
    cases d' with
    | none => rfl
    | some d' => cases hending
  | some d =>
    cases d' with
    | none => cases hending
    | some d' => exact congrArg some (clear_of_erase (Option.some.inj hending))

theorem Alike.run (h : Alike d d') (bytes : List UInt8) :
    Continues (run d bytes) [] (run d' bytes) := by
  induction bytes generalizing d d' with
  | nil => exact ⟨rfl, congrArg some (clear_eq_iff.mpr h)⟩
  | cons b bytes ih =>
    have hsettle := (h.store [b]).settle 0 0 3
    rw [run_cons, run_cons]
    generalize V2Decoder.settle 0 3 (d.store [b]) = r at hsettle ⊢
    generalize V2Decoder.settle 0 3 (d'.store [b]) = r' at hsettle ⊢
    obtain ⟨rc, e⟩ := r
    obtain ⟨rc', e'⟩ := r'
    obtain rfl : rc = rc' := hsettle.rc
    cases rc with
    | zero => exact ih hsettle.alike
    | emsgsize => exact Continues.refl _
    | message =>
      have htail := ih hsettle.alike
      refine ⟨?_, htail.ending⟩
      simp only [resume, map_cons, nil_append, hsettle.content rfl]
      rw [htail.messages]
      rfl

theorem Continues.append (h : Continues (run d bytes) decoded ([], some e)) (later : List UInt8) :
    Continues (run d (bytes ++ later)) decoded (run e later) := by
  rw [run_append]
  generalize run d bytes = r at h ⊢
  obtain ⟨msgs, st⟩ := r
  cases st with
  | none => cases h.ending
  | some d' =>
    have hrest := (clear_eq_iff.mp (Option.some.inj h.ending)).run later
    refine ⟨?_, hrest.ending⟩
    have hmsgs := h.messages
    simp only [map_nil, append_nil] at hmsgs
    simp only [map_append, hmsgs]
    rw [hrest.messages]
    rfl

end Clearing

section Calls

theorem decode_inPlace_rest {rc : Rc} (h : decode true d data = some (rc, e, rest)) :
    rest = [] := by
  simp only [decode, if_true] at h
  split at h
  · cases h
    rfl
  · cases h

/-- What a call of `decode` does, in terms of runs on the bytes it gets. -/
inductive Decodes (d : Decoder) (data : List UInt8) :
    Option (Rc × Decoder × List UInt8) → Prop where
  | more {e : Decoder} (live : Live e) (h : Continues (run d data) [] ([], some e)) :
      Decodes d data (some (.zero, e, []))
  | malformed {e : Decoder} {rest : List UInt8} (h : Continues (run d data) [] ([], none)) :
      Decodes d data (some (.emsgsize, e, rest))
  | message {e : Decoder} {bytes rest : List UInt8} (live : Live e) (next : e.next = .flagsReady)
      (got : e.got = []) (split : data = bytes ++ rest) (shorter : rest.length < data.length)
      (h : Continues (run d bytes) [e.inProgress.content] ([], some e)) :
      Decodes d data (some (.message, e, rest))

theorem Similar.continues_message (h : Similar r ([e.inProgress], some e)) :
    Continues r [e.inProgress.content] ([], some e) :=
  ⟨h.continues.messages, h.continues.ending⟩

theorem decode_copying (data : List UInt8) (live : Live d) :
    Decodes d data (decode false d data) := by
  have hspec := decodeLoop_spec (data.length + 1) d data live (Nat.lt_succ_self _)
  rw [show decode false d data = some (decodeLoop (data.length + 1) d data) from rfl]
  generalize decodeLoop (data.length + 1) d data = r at hspec ⊢
  obtain ⟨rc, e, rest⟩ := r
  cases rc with
  | zero =>
    obtain ⟨rfl, hlive, hrun⟩ := hspec
    exact .more hlive hrun.continues
  | emsgsize => exact .malformed hspec.1.continues
  | message =>
    obtain ⟨hlive, ⟨hnext, hgot⟩, bytes, hsplit, hne, hrun⟩ := hspec
    have hshorter : rest.length < data.length := by
      rw [hsplit, length_append]
      exact Nat.lt_add_of_pos_left (length_pos_iff.mpr hne)
    exact .message hlive hnext hgot hsplit hshorter hrun.continues_message

theorem decode_inPlace (live : Live d) (hne : data ≠ []) (hle : data.length ≤ d.toRead) :
    Decodes d data (decode true d data) := by
  have hturn := run_turn d [] live hle 0
  have hlive := settle_live 0 (d.store data)
  have hmessage := settle_message 0 3 (d.store data)
  have hdecode : decode true d data =
      some ((settle 0 3 (d.store data)).1, (settle 0 3 (d.store data)).2, []) := by
    simp [decode, hle]
  rw [hdecode]
  rw [append_nil] at hturn
  generalize settle 0 3 (d.store data) = r at hturn hlive hmessage ⊢
  obtain ⟨rc, e⟩ := r
  cases rc with
  | zero => exact .more (hlive (by simp)) hturn.continues
  | emsgsize => exact .malformed hturn.continues
  | message =>
    obtain ⟨hnext, hgot⟩ := hmessage rfl
    have hshorter : ([] : List UInt8).length < data.length := length_pos_iff.mpr hne
    exact .message (hlive (by simp)) hnext hgot (append_nil data).symm hshorter
      (Similar.continues_message hturn)

theorem decodes_decode {inPlace : Bool} (live : Live d) (hne : data ≠ [])
    (hle : inPlace = true → data.length ≤ d.toRead) : Decodes d data (decode inPlace d data) := by
  cases inPlace with
  | false => exact decode_copying data live
  | true => exact decode_inPlace live hne (hle rfl)

/-- The message a call returns is the first one of the run. -/
theorem Continues.first {m : List UInt8 × Flags} (h : Continues (run d bytes) [m] ([], some e))
    (rest : List UInt8) :
    ∃ first later, (run d (bytes ++ rest)).1 = first :: later ∧ first.content = m := by
  have hmessages := h.messages
  have hending := h.ending
  rw [run_append]
  generalize run d bytes = r at hmessages hending ⊢
  obtain ⟨msgs, st⟩ := r
  cases st with
  | none => cases hending
  | some d' =>
    cases msgs with
    | nil => cases hmessages
    | cons first later =>
      exact ⟨first, _, rfl, (cons.inj hmessages).1⟩

end Calls

end Uzmq.V2Decoder
