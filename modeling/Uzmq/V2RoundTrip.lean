import Uzmq.V2Decoder

/-!
# Encoding and decoding a sequence of messages

A sequence of messages is pushed through the encoder with arbitrary buffers and
its output is cut into arbitrary reads for a fresh decoder. The messages come
back exactly when every key message consists of whole 64-bit keys: the encoder
announces `size / 8` keys but sends all `size` bytes.
-/

namespace Uzmq.V2RoundTrip

open List
open Message Wire V2Decoder
open V2Encoder hiding messageReady sizeReady

/-- Call `encode` until the message in progress is gone; `none` when the calls run
out first. The calls that were not needed are returned. -/
def drain : Encoder → List Buffer → Option (List UInt8 × Encoder × List Buffer)
  | e, [] => if e.inProgress.isNone then some ([], e, []) else none
  | e, b :: calls =>
    if e.inProgress.isNone then some ([], e, b :: calls)
    else
      let r := encode e b
      (drain r.2 calls).map (fun t => (r.1 ++ t.1, t.2))

/-- Load and drain the messages one after the other. -/
def encodeAll : Encoder → List Msg → List Buffer → Option (List UInt8 × Encoder)
  | e, [], _ => some ([], e)
  | e, m :: later, calls =>
    match loadMsg e m with
    | none => none
    | some e =>
      match drain e calls with
      | none => none
      | some (out, e, calls) => (encodeAll e later calls).map (fun t => (out ++ t.1, t.2))

def frames (tmpbuf1 : UInt8) (msgs : List Msg) : List UInt8 :=
  (msgs.map (frame tmpbuf1)).flatten

variable {e e' : Encoder} {d : Decoder} {n : Nat} {flags : Flags} {m : Msg}

section
variable (ready : Ready e)
include ready

theorem drain_spec (calls : List Buffer) {out : List UInt8} {left : List Buffer}
    (h : drain e calls = some (out, e', left)) :
    out = rest e ∧ Ready e' ∧ e'.inProgress = none ∧ e'.tmpbuf1 = e.tmpbuf1 := by
  induction calls generalizing e out with
  | nil =>
    simp only [drain] at h
    split at h
    · rename_i hidle
      have hnone : e.inProgress = none := by simpa using hidle
      cases h
      exact ⟨(rest_of_idle hnone).symm, ready, hnone, rfl⟩
    · cases h
  | cons b calls ih =>
    cases hprog : e.inProgress with
    | none =>
      simp only [drain, hprog, Option.isNone_none, if_true] at h
      cases h
      exact ⟨(rest_of_idle hprog).symm, ready, hprog, rfl⟩
    | some m =>
      simp only [drain, hprog, Option.isNone_some, Bool.false_eq_true, if_false,
        Option.map_eq_some_iff] at h
      obtain ⟨⟨out', e1, left'⟩, hdrain, heq⟩ := h
      obtain ⟨rfl, rfl, rfl⟩ := heq
      have step := encode_spec ready hprog b
      obtain ⟨hout, hready, hidle, htmp⟩ := ih step.ready hdrain
      refine ⟨?_, hready, hidle, htmp.trans step.tmpbuf1⟩
      rw [hout]
      exact step.bytes

theorem encodeAll_spec (idle : e.inProgress = none) (msgs : List Msg) (calls : List Buffer)
    {bytes : List UInt8} (h : encodeAll e msgs calls = some (bytes, e')) :
    bytes = frames e.tmpbuf1 msgs ∧ e'.inProgress = none := by
  induction msgs generalizing e calls bytes with
  | nil =>
    obtain ⟨rfl, rfl⟩ := h
    exact ⟨rfl, idle⟩
  | cons m later ih =>
    obtain ⟨e1, hload, hready, _, hrest, _, htmp⟩ := loadMsg_spec ready idle m
    simp only [encodeAll, hload] at h
    split at h
    · cases h
    rename_i out e2 left hdrain
    obtain ⟨hout, hready2, hidle2, htmp2⟩ := drain_spec hready calls hdrain
    simp only [Option.map_eq_some_iff] at h
    obtain ⟨⟨out', e3⟩, hall, heq⟩ := h
    obtain ⟨rfl, rfl⟩ := heq
    obtain ⟨hout', hidle3⟩ := ih hready2 hidle2 left hall
    refine ⟨?_, hidle3⟩
    rw [hout, hrest, hout', htmp2, htmp]
    simp [frames]

omit ready in
theorem bufferSize_eq (h : e'.bufsize = e.bufsize) (b : Buffer) :
    e'.bufferSize b = e.bufferSize b := by
  cases b with
  | own => exact h
  | supplied n => rfl

/-- A call with a non-empty buffer makes progress, so a message is drained by
one call more than it has bytes left. -/
theorem drain_total (calls : List Buffer) (positive : ∀ b ∈ calls, 0 < e.bufferSize b)
    (enough : (rest e).length < calls.length) :
    ∃ out e' left, drain e calls = some (out, e', left) ∧ e'.bufsize = e.bufsize ∧
      left <:+ calls ∧ calls.length ≤ left.length + (rest e).length + 1 := by
  induction calls generalizing e with
  | nil => simp at enough
  | cons b calls ih =>
    cases hprog : e.inProgress with
    | none =>
      exact ⟨[], e, b :: calls, by simp [drain, hprog], rfl, suffix_refl _, by omega⟩
    | some m =>
      have step := encode_spec ready hprog b
      have hsize := positive b mem_cons_self
      have hlen := congrArg List.length step.bytes
      rw [length_append] at hlen
      have hpos' : ∀ b' ∈ calls, 0 < (encode e b).2.bufferSize b' := by
        intro b' hb'
        rw [bufferSize_eq step.bufsize]
        exact positive b' (mem_cons_of_mem b hb')
      have hdrain : drain e (b :: calls) =
          (drain (encode e b).2 calls).map (fun t => ((encode e b).1 ++ t.1, t.2)) := by
        simp [drain, hprog]
      by_cases hdone : (encode e b).2.inProgress = none
      · have hstop : drain (encode e b).2 calls = some ([], (encode e b).2, calls) := by
          cases calls <;> simp [drain, hdone]
        refine ⟨(encode e b).1 ++ [], (encode e b).2, calls, by rw [hdrain, hstop]; rfl,
          step.bufsize, suffix_cons b calls, ?_⟩
        simp only [length_cons]
        omega
      · -- The buffer was filled, so at least one byte went out.
        have hfull : 0 < (encode e b).1.length := by
          by_contra hzero
          exact hdone (step.short (by omega))
        simp only [length_cons] at enough
        obtain ⟨out, e', left, h, hbuf, hsuffix, hcount⟩ :=
          ih step.ready hpos' (by omega)
        refine ⟨(encode e b).1 ++ out, e', left, by rw [hdrain, h]; rfl,
          hbuf.trans step.bufsize, hsuffix.trans (suffix_cons b calls), ?_⟩
        simp only [length_cons]
        omega

/-- Enough calls with non-empty buffers encode every sequence of messages. -/
theorem encodeAll_total (idle : e.inProgress = none) (msgs : List Msg) (calls : List Buffer)
    (positive : ∀ b ∈ calls, 0 < e.bufferSize b)
    (enough : (msgs.map (fun m => m.size + 7)).sum ≤ calls.length) :
    ∃ bytes e', encodeAll e msgs calls = some (bytes, e') := by
  induction msgs generalizing e calls with
  | nil => exact ⟨[], e, rfl⟩
  | cons m later ih =>
    obtain ⟨e1, hload, hready, hprog, hrest, hbuf, _⟩ := loadMsg_spec ready idle m
    have hlen : (rest e1).length = m.size + 6 := by
      rw [hrest, frame, length_append, length_header, Msg.size]
      omega
    simp only [map_cons, sum_cons] at enough
    have hpos1 : ∀ b ∈ calls, 0 < e1.bufferSize b := by
      intro b hb
      rw [bufferSize_eq hbuf]
      exact positive b hb
    obtain ⟨out, e2, left, hdrain, hbuf2, hsuffix, hcount⟩ :=
      drain_total hready calls hpos1 (by omega)
    obtain ⟨_, hready2, hidle2, _⟩ := drain_spec hready calls hdrain
    have hpos2 : ∀ b ∈ left, 0 < e2.bufferSize b := by
      intro b hb
      rw [bufferSize_eq hbuf2]
      exact hpos1 b (hsuffix.subset hb)
    obtain ⟨bytes, e3, hall⟩ := ih hready2 hidle2 left hpos2 (by omega)
    exact ⟨out ++ bytes, e3, by simp [encodeAll, hload, hdrain, hall]⟩

end

theorem encodeAll_total_two : ∃ bytes e', encodeAll (Encoder.new 16 7) [{ data := [1] }, {}]
    (List.replicate 15 (.supplied 5)) = some (bytes, e') :=
  encodeAll_total (new_ready 16 7) rfl _ _ (by decide) (by decide)

/-- Between two frames, with no limit on the size of a message. -/
structure AtRest (d : Decoder) : Prop where
  next : d.next = .flagsReady
  toRead : d.toRead = 2
  got : d.got = []
  unlimited : d.maxmsgsize < 0

theorem new_atRest (bufsize : Nat) {maxmsgsize : Int} (h : maxmsgsize < 0) :
    AtRest (Decoder.new bufsize maxmsgsize) := ⟨rfl, rfl, rfl, h⟩

theorem AtRest.live (h : AtRest d) : Live d := by
  simp [Live, h.toRead]

/-- The body length a decoder concludes from the header of a message. -/
def announced (m : Msg) : Nat :=
  if m.flags.netmlKey then lengthField m * 8 else lengthField m

/-- The two flags that survive the transfer. -/
def sentFlags (m : Msg) : Flags := { more := m.flags.more, command := m.flags.command }

/-- The header has been read; `n` bytes of the body of a message with the given
flags are awaited. -/
structure Awaiting (d : Decoder) (n : Nat) (flags : Flags) : Prop where
  next : d.next = .messageReady
  toRead : d.toRead = n
  got : d.got = []
  flags : d.inProgress.flags = flags
  unlimited : d.maxmsgsize < 0

/-- The header byte carries the three flags and always the large bit. -/
theorem protocolFlags_bits (m : Msg) :
    (protocolFlags m &&& largeFlag != 0) = true ∧
      (protocolFlags m &&& keyFlag != 0) = m.flags.netmlKey ∧
      (protocolFlags m &&& moreFlag != 0) = m.flags.more ∧
      (protocolFlags m &&& commandFlag != 0) = m.flags.command := by
  unfold protocolFlags
  cases m.flags.more <;> cases m.flags.command <;> cases m.flags.netmlKey <;> decide

theorem flagsReady_header (h : AtRest d) (m : Msg) (tmpbuf1 : UInt8) :
    ∃ d1, settle 0 3 (d.store [protocolFlags m, tmpbuf1]) = (.zero, d1) ∧
      d1.next = (if m.flags.netmlKey then .keySizeReady else .fourByteSizeReady) ∧
      d1.toRead = 4 ∧ d1.got = [] ∧ d1.msgFlags = sentFlags m ∧ d1.maxmsgsize < 0 := by
  have hzero : (d.store [protocolFlags m, tmpbuf1]).toRead = 0 := by simp [Decoder.store, h.toRead]
  have hnext : (d.store [protocolFlags m, tmpbuf1]).next = .flagsReady := h.next
  have hbyte : (d.store [protocolFlags m, tmpbuf1]).got.getD 0 0 = protocolFlags m := by
    simp [Decoder.store, h.got]
  obtain ⟨hlarge, hkey, hmore, hcommand⟩ := protocolFlags_bits m
  rw [settle, if_pos hzero, act, hnext]
  simp only [flagsReady, hbyte, hlarge, hkey, hmore, hcommand, if_true]
  cases m.flags.netmlKey with
  | true | false =>
    exact ⟨_, settle_of_live 0 2 (Nat.succ_pos 3), rfl, rfl, rfl, rfl, h.unlimited⟩

theorem sizeReady_header (m : Msg) (limit : d.maxmsgsize < 0) (size avail : Nat)
    (hflags : d.msgFlags = sentFlags m) :
    ∃ d1, sizeReady d size avail = (.zero, d1) ∧ Awaiting d1 size (sentFlags m) := by
  have hcond : ¬ (0 ≤ d.maxmsgsize ∧ d.maxmsgsize < size) := by omega
  refine ⟨_, if_neg hcond, ?_⟩
  exact ⟨rfl, rfl, rfl, hflags, limit⟩

theorem settle_awaiting (h : Awaiting d n flags) (fuel : Nat) :
    settle 0 (fuel + 1) d = settle 0 1 d := by
  by_cases hn : d.toRead = 0
  · simp [settle, hn, act, h.next, messageReady]
  · simp [settle, hn]

/-- Reading a header leaves the decoder waiting for the announced body. -/
theorem run_header (h : AtRest d) (m : Msg) (tmpbuf1 : UInt8) (later : List UInt8) :
    ∃ d1, Awaiting d1 (announced m) (sentFlags m) ∧
      run d (header tmpbuf1 m ++ later) = resume (settle 0 1 d1) later := by
  obtain ⟨d1, hsettle, hnext, hread, hgot, hflags, hlimit⟩ := flagsReady_header h m tmpbuf1
  have hfirst : run d (header tmpbuf1 m ++ later) =
      run d1 (putUint32 (lengthField m) ++ later) := by
    have hsplit : header tmpbuf1 m ++ later =
        [protocolFlags m, tmpbuf1] ++ (putUint32 (lengthField m) ++ later) := rfl
    have hlen : [protocolFlags m, tmpbuf1].length = d.toRead := by simp [h.toRead]
    rw [hsplit, run_append_of_eq d _ _ h.live hlen, hsettle]
    rfl
  have hlive : Live d1 := by simp [Live, hread]
  have hlen : (putUint32 (lengthField m)).length = d1.toRead := by simp [hread]
  have hsmall : lengthField m < 2 ^ 32 := by
    unfold lengthField
    split <;> exact Nat.mod_lt _ (by decide)
  let e := d1.store (putUint32 (lengthField m))
  have hzero : e.toRead = 0 := by simp [e, Decoder.store, hread]
  have hbuffer : getUint32 e.got = lengthField m := by
    have hstored : e.got = putUint32 (lengthField m) := by simp [e, Decoder.store, hgot]
    rw [hstored, getUint32_putUint32 _ hsmall]
  have hact : act e 0 = sizeReady e (announced m) 0 := by
    have henext : e.next = if m.flags.netmlKey then _ else _ := hnext
    unfold act announced
    rw [henext]
    cases m.flags.netmlKey with
    | true => simp [keySizeReady, hbuffer]
    | false => simp [fourByteSizeReady, hbuffer]
  obtain ⟨d2, hsize, hawait⟩ := sizeReady_header (d := e) m hlimit (announced m) 0 hflags
  refine ⟨d2, hawait, ?_⟩
  rw [hfirst, run_append_of_eq d1 _ _ hlive hlen, settle, if_pos hzero, hact, hsize]
  exact congrArg (resume · later) (settle_awaiting hawait 1)

/-- Reading the announced body completes the message and brings the decoder back
to the start of a frame. -/
theorem resume_body (h : Awaiting d n flags) (body later : List UInt8) (hn : body.length = n) :
    ∃ d' msg, AtRest d' ∧ msg.data = body ∧ msg.flags = flags ∧
      resume (settle 0 1 d) (body ++ later) = (msg :: (run d' later).1, (run d' later).2) := by
  let d' := (messageReady (d.store body)).2
  have hdata : d'.inProgress.data = body := by
    simp [d', messageReady, Decoder.nextStep, Decoder.store, h.got]
  have hzero : (d.store body).toRead = 0 := by
    simp [Decoder.store, h.toRead, hn]
  have hdone : ∀ fuel, settle 0 (fuel + 1) (d.store body) = (.message, d') := by
    intro fuel
    have hnext : (d.store body).next = .messageReady := h.next
    rw [settle, if_pos hzero, act, hnext]
    rfl
  refine ⟨d', d'.inProgress, ⟨rfl, rfl, rfl, h.unlimited⟩, hdata, h.flags, ?_⟩
  cases body with
  | nil =>
    have hempty := hdone 0
    rw [store_nil] at hempty
    rw [hempty]
    rfl
  | cons b body =>
    have hlive : Live d := by
      rw [Live, h.toRead, ← hn]
      simp
    rw [settle_of_live 0 1 hlive]
    change run d (b :: body ++ later) = _
    rw [run_append_of_eq d _ _ hlive (by rw [hn, h.toRead]), hdone 2]
    rfl

/-- A header followed by at least as many bytes as it announces. -/
theorem run_frame (h : AtRest d) (m : Msg) (tmpbuf1 : UInt8) (body later : List UInt8)
    (hn : body.length = announced m) :
    ∃ d' msg, AtRest d' ∧ msg.data = body ∧ msg.flags = sentFlags m ∧
      run d (header tmpbuf1 m ++ (body ++ later)) =
        (msg :: (run d' later).1, (run d' later).2) := by
  obtain ⟨d1, hawait, hrun⟩ := run_header h m tmpbuf1 (body ++ later)
  obtain ⟨d', msg, hrest, hdata, hflags, hresume⟩ := resume_body hawait body later hn
  exact ⟨d', msg, hrest, hdata, hflags, hrun.trans hresume⟩

/-- The announced length never exceeds the size, and equals it unless a key is cut
short. -/
theorem announced_le (h : m.size < 2 ^ 32) : announced m ≤ m.size := by
  unfold announced lengthField
  split <;> omega

theorem announced_eq_iff (h : m.size < 2 ^ 32) :
    announced m = m.size ↔ (m.flags.netmlKey = true → 8 ∣ m.size) := by
  unfold announced lengthField
  cases m.flags.netmlKey with
  | true =>
    have hmod : m.size / 8 % 2 ^ 32 = m.size / 8 := Nat.mod_eq_of_lt (by omega)
    simp only [if_true, hmod, forall_const]
    omega
  | false =>
    simp only [Bool.false_eq_true, if_false, Nat.mod_eq_of_lt h, false_implies]

/-- What of a message has to come back: its body and the two flags. -/
def view (m : Msg) : List UInt8 × Bool × Bool := (m.data, m.flags.more, m.flags.command)

/-- The decoder returned the messages and stands at the start of a frame. -/
def Restored (msgs : List Msg) (r : List Msg × Status) : Prop :=
  r.1.map view = msgs.map view ∧ ∃ d, r.2 = .decoding d ∧ d.next = .flagsReady ∧ d.got = []

theorem run_frames_iff (h : AtRest d) (tmpbuf1 : UInt8) (msgs : List Msg)
    (small : ∀ m ∈ msgs, m.size < 2 ^ 32) :
    ((run d (frames tmpbuf1 msgs)).1.map view = msgs.map view ∧
      ∃ d', (run d (frames tmpbuf1 msgs)).2 = some d' ∧ d'.next = .flagsReady ∧ d'.got = []) ↔
      ∀ m ∈ msgs, m.flags.netmlKey = true → 8 ∣ m.size := by
  induction msgs generalizing d with
  | nil => simp [frames, run, h.next, h.got]
  | cons m later ih =>
    have hm := small m mem_cons_self
    have hle := announced_le hm
    -- The decoder splits the bytes after the header at the announced length.
    obtain ⟨d', msg, hrest, hdata, hflags, hrun⟩ := run_frame h m tmpbuf1
      (m.data.take (announced m)) (m.data.drop (announced m) ++ frames tmpbuf1 later)
      (by rw [length_take]; exact Nat.min_eq_left hle)
    have hframes : frames tmpbuf1 (m :: later) = header tmpbuf1 m ++
        (m.data.take (announced m) ++ (m.data.drop (announced m) ++ frames tmpbuf1 later)) := by
      rw [← append_assoc (m.data.take _), take_append_drop]
      simp [frames, frame]
    have hview : view msg = view m ↔ announced m = m.size := by
      simp only [view, hdata, hflags, sentFlags, Prod.mk.injEq, and_true]
      constructor
      · intro htake
        have hlen := congrArg List.length htake
        rw [length_take] at hlen
        change min (announced m) m.size = m.size at hlen
        omega
      · intro heq
        rw [heq]
        exact take_length
    rw [hframes, hrun]
    simp only [map_cons, List.cons.injEq, forall_mem_cons, ← announced_eq_iff hm]
    by_cases hgood : announced m = m.size
    · have hnodrop : m.data.drop (announced m) = [] := by
        rw [hgood]
        exact drop_length
      rw [hnodrop, nil_append, hview]
      have htail := ih hrest (fun m' hm' => small m' (mem_cons_of_mem m hm'))
      simp only [hgood, true_and]
      exact htail
    · rw [hview]
      simp [hgood]

/-- **Round trip.** Whatever the buffers of the encoder and the reads of the decoder,
the messages come back, with nothing left over, exactly when each key message
holds whole keys. -/
theorem restored_iff_whole_keys (bufsize : Nat) (tmpbuf1 : UInt8) (msgs : List Msg)
    (calls : List Buffer) (bytes : List UInt8) (e : Encoder) (inBufsize : Nat)
    (maxmsgsize : Int) (reads : List (List UInt8))
    (small : ∀ m ∈ msgs, m.size < 2 ^ 32)
    (produced : encodeAll (Encoder.new bufsize tmpbuf1) msgs calls = some (bytes, e))
    (unlimited : maxmsgsize < 0) (cut : reads.flatten = bytes)
    (ok : Reads (Decoder.new inBufsize maxmsgsize) reads) :
    Restored msgs (feed (Decoder.new inBufsize maxmsgsize) reads) ↔
      ∀ m ∈ msgs, m.flags.netmlKey = true → 8 ∣ m.size := by
  have hrest := new_atRest inBufsize unlimited
  have hbytes := (encodeAll_spec (new_ready bufsize tmpbuf1) rfl msgs calls produced).1
  have hfeed := feed_spec _ reads (new_live inBufsize maxmsgsize) ok
  rw [← run_frames_iff hrest tmpbuf1 msgs small]
  rw [cut, hbytes] at hfeed
  change ReadsAs _ (run _ (frames tmpbuf1 msgs)) at hfeed
  rcases hf : feed (Decoder.new inBufsize maxmsgsize) reads with ⟨ms, st⟩
  rcases hr : run (Decoder.new inBufsize maxmsgsize) (frames tmpbuf1 msgs) with ⟨ms', st'⟩
  rw [hf, hr] at hfeed
  have hviews : ∀ xs ys : List Msg,
      xs.map (fun m => (m.data, m.flags)) = ys.map (fun m => (m.data, m.flags)) →
      xs.map view = ys.map view := by
    intro xs ys h
    have hcomp := congrArg (List.map (fun p : List UInt8 × Flags => (p.1, p.2.more, p.2.command))) h
    rw [map_map, map_map] at hcomp
    exact hcomp
  cases st with
  | assertFailed => exact False.elim hfeed
  | protocolError =>
    obtain ⟨_, hend⟩ := hfeed
    have hnone : st' = none := by simpa using hend
    simp [Restored, hnone]
  | decoding e1 =>
    obtain ⟨_, hmsgs, hend⟩ := hfeed
    cases st' with
    | none => simp at hend
    | some e2 =>
      have hsame : e2.erase = e1.erase := by simpa using hend
      simp only [Restored, hviews _ _ hmsgs]
      constructor
      · rintro ⟨hv, d, hd, hnext, hgot⟩
        cases hd
        exact ⟨hv, e2, rfl, (next_eq hsame).trans hnext, (got_eq hsame).trans hgot⟩
      · rintro ⟨hv, d, hd, hnext, hgot⟩
        cases hd
        exact ⟨hv, e1, rfl, (next_eq hsame).symm.trans hnext, (got_eq hsame).symm.trans hgot⟩

/-- Two messages through buffers of five bytes and reads of four. -/
theorem restored_example :
    Restored [{ data := [1, 2, 3], flags := { more := true } },
        { data := [0, 0, 0, 0, 0, 0, 0, 9], flags := { netmlKey := true, command := true } }]
      (feed (Decoder.new 8192 (-1)) [[3, 7, 0, 0], [0, 3, 1, 2], [3, 14, 7, 0], [0, 0, 1, 0],
        [0, 0, 0, 0], [0, 0, 9]]) := by
  refine (restored_iff_whole_keys 16 7 _ (List.replicate 8 (.supplied 5)) _
    (Encoder.new 16 7) 8192 (-1) _ ?_ ?_ (by decide) rfl ?_).mpr ?_
  · decide
  · decide
  · decide
  · decide

/-- A key message of one byte: no key is announced, the byte is left in the stream. -/
theorem cut_key_not_restored :
    encodeAll (Encoder.new 8192 0) [{ data := [1], flags := { netmlKey := true } }] [.own] =
        some ([10, 0, 0, 0, 0, 0, 1], Encoder.new 8192 0) ∧
      Reads (Decoder.new 8192 (-1)) [[10, 0, 0, 0, 0, 0, 1]] ∧
      ¬ Restored [{ data := [1], flags := { netmlKey := true } }]
        (feed (Decoder.new 8192 (-1)) [[10, 0, 0, 0, 0, 0, 1]]) := by
  refine ⟨by decide, by decide, ?_⟩
  rintro ⟨hview, _⟩
  revert hview
  decide

end Uzmq.V2RoundTrip
