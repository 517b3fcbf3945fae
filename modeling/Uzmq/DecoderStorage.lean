import Uzmq.DecoderMemory

/-!
# The decoder's memory holds what it has got

The decoder over memory is compared with the one of `Uzmq.V2Decoder`, which keeps the bytes stored
since the last `next_step` as a list. They stand from the base of the current field up to
`read_pos`, and do so in each of the three cases: bytes are copied to the field, they are there
because the field is a part of the receive buffer, or they have been read into it.
-/

namespace Uzmq.DecoderMemory

open V2Decoder List
open Function (update)

section Loads
variable {n : Nat} {p : Ptr} (m : Memory)

@[simp] theorem load_length : (load m p n).length = n := Blocks.load_length ..

@[simp] theorem load_zero : load m p 0 = [] := rfl

theorem load_add {k : Nat} : load m p (n + k) = load m p n ++ load m (p.add n) k :=
  Blocks.load_add ..

theorem load_fill_of_ne {o : Nat} {b : Block} (h : p.block ≠ b) (values : List UInt8) :
    load (m.fill b o values) p n = load m p n :=
  Blocks.load_fill_of_ne m o n h p.offset values

@[simp] theorem add_block (p : Ptr) (n : Nat) : (p.add n).block = p.block := rfl

@[simp] theorem add_offset (p : Ptr) (n : Nat) : (p.add n).offset = p.offset + n := rfl

theorem add_add (p : Ptr) (n k : Nat) : (p.add n).add k = p.add (n + k) := by
  simp [Ptr.add, Nat.add_assoc]

@[simp] theorem add_zero (p : Ptr) : p.add 0 = p := rfl

end Loads

section Simulation
variable {d : Decoder} {r : V2Decoder.Decoder}

/-- The bytes of the field that the decoder is reading. -/
def need (d : Decoder) : Nat :=
  match d.next with
  | .flagsReady => 2
  | .oneByteSizeReady => 1
  | .keySizeReady | .fourByteSizeReady => 4
  | .messageReady => d.inProgress.size

/-- The address of that field. -/
def base (d : Decoder) : Ptr :=
  match d.next with
  | .messageReady => d.inProgress.storage.data
  | _ => ⟨.tmpbuf, 0⟩

/-- The decoder has got the bytes of the list. -/
structure Sim (d : Decoder) (r : V2Decoder.Decoder) : Prop where
  next : d.next = r.next
  toRead : d.toRead = r.toRead
  msgFlags : d.msgFlags = r.msgFlags
  maxmsgsize : d.maxmsgsize = r.maxmsgsize
  maxSize : d.maxSize = r.maxSize
  readPos : d.readPos = (base d).add r.got.length
  got : load d.memory (base d) r.got.length = r.got
  awaits : r.got.length + r.toRead = need d
  flags : d.next = .messageReady → d.inProgress.flags = r.inProgress.flags

/-- The rest of the received bytes stands at an offset of the receive buffer. A body in the buffer
begins where the decoder is, and ends in the buffer. -/
structure Spot (d : Decoder) (o : Nat) (rest : List UInt8) : Prop where
  stands : load d.memory ⟨.buffer d.buf, o⟩ rest.length = rest
  ends : o + rest.length = d.bufsize
  zclmsg : ∀ hint p, d.next = .messageReady → d.inProgress.storage = .zclmsg hint p →
    d.readPos = ⟨.buffer d.buf, o⟩ ∧ d.toRead ≤ rest.length

/-- The blocks that the decoder may write to while it decodes. -/
def Writable (d : Decoder) (b : Block) : Prop :=
  b = .tmpbuf ∨ b = .vsm ∨ ∃ content, b = .content content ∧ d.inProgress.storage = .lmsg content

/-- `read_pos` is in a block that may be written to, unless it is in the receive buffer. -/
theorem Sim.writable (h : Sim d r)
    (hzcl : ∀ hint p, d.next = .messageReady → d.inProgress.storage ≠ .zclmsg hint p) :
    Writable d d.readPos.block := by
  rw [h.readPos, add_block]
  unfold base
  split
  · rename_i hnext
    cases hstorage : d.inProgress.storage with
    | vsm => exact .inr (.inl rfl)
    | lmsg content => exact .inr (.inr ⟨content, rfl, hstorage⟩)
    | zclmsg hint p => exact absurd hstorage (hzcl hint p hnext)
  · exact .inl rfl

/-- Fields other than bodies in the buffer are in other blocks. -/
theorem Sim.not_buffer (h : Sim d r)
    (hzcl : ∀ hint p, d.next = .messageReady → d.inProgress.storage ≠ .zclmsg hint p) (b : Nat) :
    d.readPos.block ≠ .buffer b := by
  rcases h.writable hzcl with hb | hb | ⟨content, hb, -⟩ <;> rw [hb] <;> exact nofun

theorem Sim.advance {m : Memory} {bytes : List UInt8} (h : Sim d r)
    (hle : bytes.length ≤ d.toRead) (hold : load m (base d) r.got.length = r.got)
    (hnew : load m d.readPos bytes.length = bytes) :
    Sim { d with
      memory := m
      readPos := d.readPos.add bytes.length
      toRead := d.toRead - bytes.length } (r.store bytes) := by
  have htoRead := h.toRead
  have hneed := h.awaits
  refine { h with toRead := ?_, readPos := ?_, got := ?_, awaits := ?_ }
  · exact congrArg (· - bytes.length) htoRead
  · change d.readPos.add bytes.length = (base d).add (r.got ++ bytes).length
    rw [h.readPos, add_add, length_append]
  · change load m (base d) (r.got ++ bytes).length = r.got ++ bytes
    rw [length_append, load_add, hold, ← h.readPos, hnew]
  · change (r.got ++ bytes).length + (r.toRead - bytes.length) = need d
    rw [length_append]
    omega

/-- What is stored at `read_pos` leaves the bytes before it. -/
theorem Sim.got_fill (h : Sim d r) (values : List UInt8) :
    load (d.memory.fill d.readPos.block d.readPos.offset values) (base d) r.got.length = r.got := by
  have hbefore := Blocks.load_fill_before d.memory d.readPos.block (base d).block
    d.readPos.offset r.got.length (i := (base d).offset)
    (by rw [h.readPos]; exact Nat.le_refl _) values
  exact hbefore.trans h.got

theorem Sim.copy {o k : Nat} {rest : List UInt8} (h : Sim d r) (hs : Spot d o rest)
    (hle : k ≤ d.toRead) (hlen : k ≤ rest.length) :
    Sim (d.copy ⟨.buffer d.buf, o⟩ k) (r.store (rest.take k)) ∧
      Spot (d.copy ⟨.buffer d.buf, o⟩ k) (o + k) (rest.drop k) := by
  have htake : (rest.take k).length = k := by simp [hlen]
  have hstands : d.memory.load (.buffer d.buf) o rest.length = rest := hs.stands
  have hhere : load d.memory ⟨.buffer d.buf, o⟩ k = rest.take k := by
    have hpart := Blocks.load_take d.memory (.buffer d.buf) o rest.length hlen
    rw [hstands] at hpart
    exact hpart.symm
  have hlater : load d.memory ⟨.buffer d.buf, o + k⟩ (rest.drop k).length = rest.drop k := by
    have hpart := Blocks.load_drop d.memory (.buffer d.buf) o rest.length hlen
    rw [hstands] at hpart
    rw [length_drop]
    exact hpart.symm
  have hends : o + k + (rest.drop k).length = d.bufsize := by
    have := hs.ends
    rw [length_drop]
    omega
  have hzcl : ∀ hint p, d.next = .messageReady → d.inProgress.storage = .zclmsg hint p →
      d.readPos.add k = ⟨.buffer d.buf, o + k⟩ ∧ d.toRead - k ≤ (rest.drop k).length := by
    intro hint p hnext hstorage
    obtain ⟨hpos, hfits⟩ := hs.zclmsg hint p hnext hstorage
    rw [hpos, length_drop]
    exact ⟨rfl, by omega⟩
  -- The bytes are at `read_pos` already, or they are copied there.
  obtain ⟨m, hcopy, hgot, hnew, hrest⟩ : ∃ m, d.copy ⟨.buffer d.buf, o⟩ k =
        { d with memory := m, readPos := d.readPos.add k, toRead := d.toRead - k } ∧
      load m (base d) r.got.length = r.got ∧
      load m d.readPos (rest.take k).length = rest.take k ∧
      load m ⟨.buffer d.buf, o + k⟩ (rest.drop k).length = rest.drop k := by
    by_cases hpos : d.readPos = ⟨.buffer d.buf, o⟩
    · exact ⟨d.memory, by simp [Decoder.copy, hpos], h.got, by rw [htake, hpos, hhere], hlater⟩
    have hblock : d.readPos.block ≠ .buffer d.buf :=
      h.not_buffer (fun hint p hnext hstorage => hpos (hs.zclmsg hint p hnext hstorage).1) d.buf
    refine ⟨memcpy d.memory d.readPos ⟨.buffer d.buf, o⟩ k, by simp [Decoder.copy, hpos],
      h.got_fill _, ?_, (load_fill_of_ne d.memory hblock.symm _).trans hlater⟩
    unfold memcpy
    rw [hhere]
    exact Blocks.load_fill_self ..
  have hsim := h.advance (htake.symm ▸ hle) hgot hnew
  rw [htake] at hsim
  rw [hcopy]
  exact ⟨hsim, hrest, hends, hzcl⟩

end Simulation

section Frames
variable {d d' : Decoder}

/-- A message that was passed on has its body in a block of its own or in a receive buffer. -/
def Clear (d : Decoder) (h : Held) : Prop :=
  match h.content with
  | .inner _ => True
  | .block id => id < d.fresh ∧ d.inProgress.storage ≠ .lmsg id
  | .shared hint p => p.block = .buffer hint ∧ hint < d.fresh

/-- The decoder's blocks have been allocated. -/
def Owned (d : Decoder) : Prop :=
  d.buf < d.fresh ∧
    match d.inProgress.storage with
    | .vsm => True
    | .lmsg content => content < d.fresh
    | .zclmsg hint p => p.block = .buffer hint ∧ hint < d.fresh

/-- The references of a message to a buffer. -/
def refers (storage : Storage) (b : Nat) : Nat :=
  match storage with
  | .zclmsg hint _ => if hint = b then 1 else 0
  | _ => 0

theorem Clear.mono {h : Held} (hclear : Clear d h) (hfresh : d.fresh ≤ d'.fresh)
    (hstorage : ∀ id < d.fresh, d'.inProgress.storage = .lmsg id →
      d.inProgress.storage = .lmsg id) : Clear d' h := by
  unfold Clear at hclear ⊢
  cases hcontent : h.content with
  | inner bytes => trivial
  | block id =>
    rw [hcontent] at hclear
    exact ⟨hclear.1.trans_le hfresh, fun heq => hclear.2 (hstorage id hclear.1 heq)⟩
  | shared hint p =>
    rw [hcontent] at hclear
    exact ⟨hclear.1, hclear.2.trans_le hfresh⟩

theorem Clear.body_fill {o : Nat} {b : Block} {h : Held} {memory : Memory} (hclear : Clear d h)
    (hb : Writable d b) (values : List UInt8) :
    h.body (memory.fill b o values) = h.body memory := by
  unfold Clear at hclear
  unfold Held.body
  cases hcontent : h.content with
  | inner bytes => rfl
  | block id =>
    rw [hcontent] at hclear
    refine load_fill_of_ne memory ?_ values
    rintro rfl
    rcases hb with hb | hb | ⟨content, hb, hstorage⟩
    · cases hb
    · cases hb
    · cases hb
      exact hclear.2 hstorage
  | shared hint p =>
    rw [hcontent] at hclear
    refine load_fill_of_ne memory ?_ values
    rintro rfl
    rcases hb with hb | hb | ⟨content, hb, -⟩ <;> cases hclear.1.symm.trans hb

/-- Decoding keeps the messages that were passed on, and counts its own references. -/
structure Frame (d d' : Decoder) : Prop where
  buf : d'.buf = d.buf
  bufsize : d'.bufsize = d.bufsize
  owned : Owned d → Owned d'
  refs : ∀ b, d'.refs b + refers d.inProgress.storage b = d.refs b + refers d'.inProgress.storage b
  held : ∀ h, Clear d h → Clear d' h ∧ h.body d'.memory = h.body d.memory

theorem Frame.trans {e : Decoder} (h : Frame d d') (h' : Frame d' e) : Frame d e := by
  constructor
  · exact h'.buf.trans h.buf
  · exact h'.bufsize.trans h.bufsize
  · exact fun hown => h'.owned (h.owned hown)
  · intro b
    have hrefs := h.refs b
    have hrefs' := h'.refs b
    omega
  · intro held hclear
    obtain ⟨hclear', hbody⟩ := h.held held hclear
    obtain ⟨hclear'', hbody'⟩ := h'.held held hclear'
    exact ⟨hclear'', hbody'.trans hbody⟩

theorem Frame.of_fields (h : (d'.memory, d'.buf, d'.bufsize, d'.fresh, d'.refs) =
      (d.memory, d.buf, d.bufsize, d.fresh, d.refs))
    (hstorage : d'.inProgress.storage = d.inProgress.storage) : Frame d d' := by
  simp only [Prod.mk.injEq] at h
  obtain ⟨hmemory, hbuf, hbufsize, hfresh, hrefs⟩ := h
  constructor
  · exact hbuf
  · exact hbufsize
  · intro hown
    unfold Owned
    rw [hbuf, hfresh, hstorage]
    exact hown
  · intro b
    rw [hrefs, hstorage]
  · intro h hclear
    unfold Clear
    rw [hfresh, hstorage, hmemory]
    exact ⟨hclear, rfl⟩

theorem Frame.refl (d : Decoder) : Frame d d := .of_fields rfl rfl

theorem Frame.of_fill {o : Nat} {b : Block} (hb : Writable d b) (values : List UInt8) (readPos : Ptr)
    (toRead : Nat) :
    Frame d { d with memory := d.memory.fill b o values, readPos, toRead } := by
  constructor
  · rfl
  · rfl
  · exact id
  · exact fun b => rfl
  · exact fun h hclear => ⟨hclear, hclear.body_fill hb values⟩

theorem Sim.copy_frame {r : V2Decoder.Decoder} {o k : Nat} {rest : List UInt8} (h : Sim d r)
    (hs : Spot d o rest) : Frame d (d.copy ⟨.buffer d.buf, o⟩ k) := by
  unfold Decoder.copy
  split
  · exact .of_fields rfl rfl
  · rename_i hpos
    have hb : Writable d d.readPos.block :=
      h.writable fun hint p hnext hstorage => hpos (hs.zclmsg hint p hnext hstorage).1
    exact .of_fill hb _ _ _

end Frames

section Actions
variable {d : Decoder} {r : V2Decoder.Decoder} {o : Nat} {rest : List UInt8}
  {r' : V2Decoder.Decoder}

/-- The decoder stands at an offset of the receive buffer, and has a message in progress only
while it reads its body. -/
structure Ready (d : Decoder) (r : V2Decoder.Decoder) (o : Nat) (rest : List UInt8) : Prop where
  sim : Sim d r
  spot : Spot d o rest
  idle : d.next ≠ .messageReady → d.inProgress.storage = .vsm

/-- The message in progress is complete. -/
structure Complete (d : Decoder) (r : V2Decoder.Decoder) : Prop where
  body : d.taken.body d.memory = r.inProgress.data
  flags : d.inProgress.flags = r.inProgress.flags

/-- What holds after actions with a return code. -/
def Outcome (rc : Rc) (d : Decoder) (r : V2Decoder.Decoder) (o : Nat) (rest : List UInt8) : Prop :=
  match rc with
  | .zero => Ready d r o rest
  | .emsgsize => True
  | .message => Complete d r ∧ Ready { d with inProgress := {} } r o rest

/-- The actions on memory give what the ones on lists give. -/
def Simulated (d : Decoder) (o : Nat) (rest : List UInt8) (result : Option (Rc × Decoder))
    (lists : Rc × V2Decoder.Decoder) : Prop :=
  ∃ d', result = some (lists.1, d') ∧ Outcome lists.1 d' lists.2 o rest ∧ Frame d d'

theorem Sim.header (h : Sim d r) (hnext : d.next ≠ .messageReady) :
    load d.memory ⟨.tmpbuf, 0⟩ r.got.length = r.got := by
  have hbase : base d = ⟨.tmpbuf, 0⟩ := by
    unfold base
    split
    · rename_i hmessage
      exact absurd hmessage hnext
    · rfl
  exact hbase ▸ h.got

theorem Sim.first_byte (h : Sim d r) (hnext : d.next ≠ .messageReady) (hpos : 0 < r.got.length) :
    d.memory .tmpbuf 0 = r.got.getD 0 0 := by
  have hheader := h.header hnext
  obtain ⟨n, hn⟩ := Nat.exists_eq_add_of_lt hpos
  rw [hn] at hheader
  rw [← hheader]
  rfl

section
variable (h : Ready d r o rest)
include h

theorem Ready.nextStep {toRead : Nat} {next : V2Decoder.Next} (hnext : next ≠ .messageReady)
    (hstorage : d.inProgress.storage = .vsm) (hneed : toRead = need { d with next }) :
    Ready (d.nextStep ⟨.tmpbuf, 0⟩ toRead next) (r.nextStep toRead next) o rest := by
  have hbase : base (d.nextStep ⟨.tmpbuf, 0⟩ toRead next) = ⟨.tmpbuf, 0⟩ := by
    unfold base Decoder.nextStep
    dsimp only
    split
    · exact absurd rfl hnext
    · rfl
  constructor
  · constructor
    · rfl
    · rfl
    · exact h.sim.msgFlags
    · exact h.sim.maxmsgsize
    · exact h.sim.maxSize
    · rw [hbase]
      rfl
    · rfl
    · exact (Nat.zero_add _).trans hneed
    · exact fun hmessage => absurd hmessage hnext
  · exact { h.spot with zclmsg := fun _ _ hmessage => absurd hmessage hnext }
  · exact fun _ => hstorage

theorem flagsReady_spec (hnext : d.next = .flagsReady) (h0 : d.toRead = 0) :
    Simulated d o rest (some d.flagsReady) (flagsReady r) := by
  have hmessage : d.next ≠ .messageReady := by simp [hnext]
  have hlength : r.got.length = 2 := by
    have hawaits := h.sim.awaits
    have htoRead := h.sim.toRead
    simp only [need, hnext] at hawaits
    omega
  have hbyte := h.sim.first_byte hmessage (by omega)
  have hstorage := h.idle hmessage
  have hflags : Ready { d with msgFlags :=
      { more := r.got.getD 0 0 &&& V2Encoder.moreFlag != 0
        command := r.got.getD 0 0 &&& V2Encoder.commandFlag != 0 } }
      { r with msgFlags :=
        { more := r.got.getD 0 0 &&& V2Encoder.moreFlag != 0
          command := r.got.getD 0 0 &&& V2Encoder.commandFlag != 0 } } o rest :=
    ⟨{ h.sim with msgFlags := rfl }, { h.spot with }, h.idle⟩
  unfold Decoder.flagsReady flagsReady
  rw [hbyte]
  dsimp only
  split
  · split <;> exact ⟨_, rfl, hflags.nextStep nofun hstorage rfl, .of_fields rfl rfl⟩
  · exact ⟨_, rfl, hflags.nextStep nofun hstorage rfl, .of_fields rfl rfl⟩

theorem messageReady_spec (hnext : d.next = .messageReady) (h0 : d.toRead = 0) :
    Simulated d o rest (some d.messageReady) (messageReady r) := by
  have hlength : r.got.length = d.inProgress.size := by
    have hawaits := h.sim.awaits
    have htoRead := h.sim.toRead
    simp only [need, hnext] at hawaits
    omega
  have hbase : base d = d.inProgress.storage.data := by simp [base, hnext]
  have hgot := h.sim.got
  rw [hlength, hbase] at hgot
  have hbody : d.taken.body d.memory = r.got := by
    rw [← hgot]
    unfold Decoder.taken Held.body
    cases d.inProgress.storage <;> rfl
  refine ⟨_, rfl, ⟨⟨hbody, h.sim.flags hnext⟩, ?_⟩, .of_fields rfl rfl⟩
  constructor
  · exact ⟨rfl, rfl, h.sim.msgFlags, h.sim.maxmsgsize, h.sim.maxSize, rfl, rfl, rfl, nofun⟩
  · exact { h.spot with zclmsg := nofun }
  · exact fun _ => rfl

/-- A message has got storage for its body: the decoder is otherwise the same, and a body in the
receive buffer stands at the address given. -/
structure Stored (d : Decoder) (readFrom : Ptr) (size : Nat) (d' : Decoder) : Prop where
  frame : Frame d d'
  msgFlags : d'.msgFlags = d.msgFlags
  maxmsgsize : d'.maxmsgsize = d.maxmsgsize
  maxSize : d'.maxSize = d.maxSize
  length : d'.inProgress.size = size
  buffers : ∀ b i n, load d'.memory ⟨.buffer b, i⟩ n = load d.memory ⟨.buffer b, i⟩ n
  zclmsg : ∀ hint p, d'.inProgress.storage = .zclmsg hint p →
    p = readFrom ∧ readFrom.offset + size ≤ d.bufsize

omit h in
theorem initSize_stored (hstorage : d.inProgress.storage = .vsm) (readFrom : Ptr) (size : Nat) :
    Stored d readFrom size (d.initSize size) := by
  unfold Decoder.initSize
  split
  · exact ⟨.of_fields rfl hstorage.symm, rfl, rfl, rfl, rfl, fun _ _ _ => rfl,
      nofun⟩
  refine ⟨?_, rfl, rfl, rfl, rfl, fun _ _ _ => rfl, nofun⟩
  constructor
  · rfl
  · rfl
  · exact fun hown => ⟨Nat.lt_succ_of_lt hown.1, Nat.lt_succ_self _⟩
  · intro b
    rw [hstorage]
    rfl
  · intro h hclear
    refine ⟨hclear.mono (Nat.le_succ _) ?_, rfl⟩
    intro id hid heq
    cases heq
    exact absurd hid (Nat.lt_irrefl _)

omit h in
theorem initBuffer_stored {size : Nat} (hstorage : d.inProgress.storage = .vsm) (hown : Owned d)
    (hfits : o + size ≤ d.bufsize) :
    Stored d ⟨.buffer d.buf, o⟩ size (d.initBuffer ⟨.buffer d.buf, o⟩ size) := by
  unfold Decoder.initBuffer
  split
  · rename_i hsmall
    have hvsm : d.initSize size = { d with inProgress := { storage := .vsm, size } } := by
      unfold Decoder.initSize
      rw [if_pos (Nat.le_of_lt hsmall)]
    have hfirst := initSize_stored hstorage ⟨.buffer d.buf, o⟩ size
    rw [hvsm] at hfirst ⊢
    have hb : Writable { d with inProgress := { storage := .vsm, size } } .vsm := .inr (.inl rfl)
    refine ⟨hfirst.frame.trans (.of_fill hb _ _ _), rfl, rfl, rfl, rfl, ?_, nofun⟩
    intro b i n
    have hne : (Block.buffer b) ≠ .vsm := nofun
    exact load_fill_of_ne d.memory (p := ⟨.buffer b, i⟩) hne _
  · refine ⟨?_, rfl, rfl, rfl, rfl, fun _ _ _ => rfl, ?_⟩
    · constructor
      · rfl
      · rfl
      · exact fun _ => ⟨hown.1, rfl, hown.1⟩
      · intro b
        rw [hstorage]
        simp only [Decoder.incRef, refers]
        rcases eq_or_ne b d.buf with rfl | hb
        · simp
        · simp [hb, Ne.symm hb]
      · exact fun h hclear => ⟨hclear.mono (Nat.le_refl _) nofun, rfl⟩
    · intro hint p heq
      cases heq
      exact ⟨rfl, hfits⟩

omit h in
theorem Stored.ready {d' : Decoder} {size : Nat} (hs : Stored d ⟨.buffer d.buf, o⟩ size d')
    (h : Ready d r o rest) {msg : Message.Msg} (hflags : msg.flags = r.msgFlags) :
    Ready
      (Decoder.nextStep { d' with inProgress := { d'.inProgress with flags := d'.msgFlags } }
        d'.inProgress.storage.data d'.inProgress.size .messageReady)
      ({ r with inProgress := msg }.nextStep size .messageReady) o rest := by
  have hbuf := hs.frame.buf
  constructor
  · constructor
    · rfl
    · exact hs.length
    · exact hs.msgFlags.trans h.sim.msgFlags
    · exact hs.maxmsgsize.trans h.sim.maxmsgsize
    · exact hs.maxSize.trans h.sim.maxSize
    · rfl
    · rfl
    · exact (Nat.zero_add _).trans hs.length.symm
    · exact fun _ => (hs.msgFlags.trans h.sim.msgFlags).trans hflags.symm
  · constructor
    · change load d'.memory ⟨.buffer d'.buf, o⟩ rest.length = rest
      rw [hbuf, hs.buffers]
      exact h.spot.stands
    · exact h.spot.ends.trans hs.frame.bufsize.symm
    intro hint p hnext hstorage
    obtain ⟨rfl, hfits⟩ := hs.zclmsg hint p hstorage
    have hends := h.spot.ends
    have hdata : d'.inProgress.storage.data = ⟨.buffer d.buf, o⟩ := by
      rw [show d'.inProgress.storage = _ from hstorage]
      rfl
    refine ⟨?_, ?_⟩
    · change d'.inProgress.storage.data = ⟨.buffer d'.buf, o⟩
      rw [hdata, hbuf]
    · change d'.inProgress.size ≤ rest.length
      rw [hs.length]
      dsimp only at hfits
      omega
  · exact fun hnot => absurd rfl hnot

theorem sizeReady_spec (hnext : d.next ≠ .messageReady) (hown : Owned d) (size : Nat) :
    Simulated d o rest (d.sizeReady size ⟨.buffer d.buf, o⟩) (sizeReady r size rest.length) := by
  have hstorage := h.idle hnext
  have hclose : d.closeInProgress = { d with inProgress := {} } := by
    unfold Decoder.closeInProgress
    rw [hstorage]
  unfold Decoder.sizeReady sizeReady
  rw [h.sim.maxmsgsize]
  split
  · exact ⟨d, rfl, trivial, .refl d⟩
  rw [if_pos rfl, hclose]
  dsimp only
  have hclosed : Frame d { d with inProgress := {} } :=
    .of_fields rfl hstorage.symm
  have hready : Ready { d with inProgress := {} } r o rest := by
    refine ⟨?_, { h.spot with zclmsg := fun _ _ hmessage => absurd hmessage hnext },
      fun _ => rfl⟩
    have hbase : base { d with inProgress := {} } = base d := by
      unfold base
      cases hn : d.next <;> simp_all
    have hneed : need { d with inProgress := {} } = need d := by
      unfold need
      cases hn : d.next <;> simp_all
    exact {
      h.sim with
      readPos := hbase ▸ h.sim.readPos
      got := hbase ▸ h.sim.got
      awaits := hneed ▸ h.sim.awaits
      flags := fun hmessage => absurd hmessage hnext }
  by_cases hlarge : d.bufsize < o + size
  · rw [if_pos hlarge]
    have hs := initSize_stored (d := { d with inProgress := {} }) rfl ⟨.buffer d.buf, o⟩ size
    exact ⟨_, rfl, hs.ready hready rfl, hclosed.trans (hs.frame.trans (.of_fields rfl rfl))⟩
  · rw [if_neg hlarge]
    have hs := initBuffer_stored (d := { d with inProgress := {} }) rfl (hclosed.owned hown)
      (Nat.le_of_not_lt hlarge)
    exact ⟨_, rfl, hs.ready hready rfl, hclosed.trans (hs.frame.trans (.of_fields rfl rfl))⟩

theorem act_spec (h0 : d.toRead = 0) (hown : Owned d) :
    Simulated d o rest (d.act ⟨.buffer d.buf, o⟩) (act r rest.length) := by
  have htoRead := h.sim.toRead
  have hawaits := h.sim.awaits
  unfold Decoder.act act
  rw [← h.sim.next]
  cases hnext : d.next with
  | flagsReady => exact flagsReady_spec h hnext h0
  | oneByteSizeReady =>
    have hmessage : d.next ≠ .messageReady := by simp [hnext]
    simp only [need, hnext] at hawaits
    have hbyte := h.sim.first_byte hmessage (by omega)
    simp only [hbyte, oneByteSizeReady, Wire.byteAt]
    exact sizeReady_spec h hmessage hown _
  | keySizeReady =>
    have hmessage : d.next ≠ .messageReady := by simp [hnext]
    simp only [need, hnext] at hawaits
    have hheader := h.sim.header hmessage
    rw [show r.got.length = 4 by omega] at hheader
    simp only [hheader, keySizeReady]
    exact sizeReady_spec h hmessage hown _
  | fourByteSizeReady =>
    have hmessage : d.next ≠ .messageReady := by simp [hnext]
    simp only [need, hnext] at hawaits
    have hheader := h.sim.header hmessage
    rw [show r.got.length = 4 by omega] at hheader
    simp only [hheader, fourByteSizeReady]
    exact sizeReady_spec h hmessage hown _
  | messageReady => exact messageReady_spec h hnext h0

end

theorem settle_spec (fuel : Nat) (h : Ready d r o rest) (hown : Owned d) :
    Simulated d o rest (d.settle ⟨.buffer d.buf, o⟩ fuel) (settle rest.length fuel r) := by
  induction fuel generalizing d r with
  | zero => exact ⟨d, rfl, h, .refl d⟩
  | succ fuel ih =>
    unfold Decoder.settle settle
    rw [← h.sim.toRead]
    by_cases h0 : d.toRead = 0
    · rw [if_pos h0, if_pos h0]
      obtain ⟨d', heq, houtcome, hframe⟩ := act_spec h h0 hown
      rw [heq]
      rcases hact : act r rest.length with ⟨rc, r'⟩
      rw [hact] at houtcome
      cases rc with
      | zero =>
        obtain ⟨e, hsettle, houtcome', hframe'⟩ := ih houtcome (hframe.owned hown)
        rw [hframe.buf] at hsettle
        exact ⟨e, hsettle, houtcome', hframe.trans hframe'⟩
      | message | emsgsize => exact ⟨d', rfl, houtcome, hframe⟩
    · rw [if_neg h0, if_neg h0]
      exact ⟨d, rfl, h, .refl d⟩

end Actions

section Decoding

/-- The loop on memory gives what the loop on lists gives, and has used the same bytes. -/
def Looped (d : Decoder) (start size : Nat) (result : Option (Rc × Decoder × Nat))
    (lists : Rc × V2Decoder.Decoder × List UInt8) : Prop :=
  ∃ d' used, result = some (lists.1, d', used) ∧ used + lists.2.2.length = size ∧
    Outcome lists.1 d' lists.2.1 (start + used) lists.2.2 ∧ Frame d d'

theorem decodeLoop_spec {d : Decoder} {r : V2Decoder.Decoder} {rest : List UInt8}
    {bytesUsed fuel size start : Nat} (h : Ready d r (start + bytesUsed) rest) (hown : Owned d)
    (hsize : bytesUsed + rest.length = size) :
    Looped d start size (Decoder.decodeLoop ⟨.buffer d.buf, start⟩ size fuel d bytesUsed)
      (V2Decoder.decodeLoop fuel r rest) := by
  induction fuel generalizing d r rest bytesUsed with
  | zero => exact ⟨d, bytesUsed, rfl, hsize, h, .refl d⟩
  | succ fuel ih =>
    by_cases hempty : rest = []
    · subst hempty
      have hend : ¬ bytesUsed < size := by
        simp only [length_nil] at hsize
        omega
      unfold Decoder.decodeLoop
      rw [if_neg hend]
      exact ⟨d, bytesUsed, rfl, hsize, h, .refl d⟩
    · have hpos : 0 < rest.length := length_pos_iff.mpr hempty
      have hcond : ¬ rest.isEmpty = true := by simpa using hempty
      have hk : min d.toRead (size - bytesUsed) = min r.toRead rest.length := by
        rw [h.sim.toRead]
        omega
      obtain ⟨k, hmin⟩ : ∃ k, min r.toRead rest.length = k := ⟨_, rfl⟩
      have hle : k ≤ d.toRead := by
        omega
      -- the turn on memory and the turn on lists
      obtain ⟨hsim, hspot⟩ := h.sim.copy h.spot hle (by omega)
      have hframe := h.sim.copy_frame (k := k) h.spot
      have hcopied : Ready (d.copy ⟨.buffer d.buf, start + bytesUsed⟩ k) (r.store (rest.take k))
          (start + (bytesUsed + k)) (rest.drop k) := by
        rw [← Nat.add_assoc]
        exact ⟨hsim, hspot, h.idle⟩
      obtain ⟨e, hsettle, houtcome, hframe'⟩ := settle_spec 3 hcopied (hframe.owned hown)
      rw [length_drop] at hsettle houtcome
      have hlength : bytesUsed + k + (rest.drop k).length = size := by
        rw [length_drop]
        omega
      rw [hframe.buf] at hsettle
      unfold Decoder.decodeLoop decodeLoop
      rw [if_pos (by omega), if_neg hcond, hk, hmin]
      have hboth := hframe.trans hframe'
      dsimp only [Ptr.add]
      rw [hsettle]
      rcases hresult : settle (rest.length - k) 3 (r.store (rest.take k)) with ⟨rc, r'⟩
      rw [hresult] at houtcome
      cases rc with
      | zero =>
        obtain ⟨d', used, hloop, hused, houtcome', hlater⟩ :=
          ih houtcome (hboth.owned hown) hlength
        rw [hboth.buf] at hloop
        exact ⟨d', used, hloop, hused, houtcome', hboth.trans hlater⟩
      | message | emsgsize => exact ⟨e, bytesUsed + k, rfl, hlength, houtcome, hboth⟩

theorem decode_spec {d : Decoder} {r : V2Decoder.Decoder} {o : Nat} {rest : List UInt8}
    (h : Ready d r o rest) (hown : Owned d) (hpos : d.readPos ≠ ⟨.buffer d.buf, o⟩) :
    Looped d o rest.length (d.decode ⟨.buffer d.buf, o⟩ rest.length)
      (V2Decoder.decodeLoop (rest.length + 1) r rest) := by
  unfold Decoder.decode
  rw [if_neg (Ne.symm hpos)]
  exact decodeLoop_spec h hown (Nat.zero_add _)

end Decoding

end Uzmq.DecoderMemory
