import Uzmq.DataOutEvent

/-!
# The byte stream of a data connection

What `tcp_write` has accepted is compared with the encodings of the messages
pulled from the session. `data_out_event` loses bytes in three ways: the writing
loop stops when the bytes sent catch up with the bytes left, a failed call throws
the batch away, and so does a batch that fills up inside a multi-part message.
`Lossless` is the condition on a single step that leaves out these three, and a
run of such steps transmits the stream.
-/

namespace Uzmq.DataOutStream

open List Message V2Encoder V2RoundTrip DataOutEvent Runs

theorem frames_append_singleton (tmpbuf1 : UInt8) (msgs : List Msg) (m : Msg) :
    frames tmpbuf1 (msgs ++ [m]) = frames tmpbuf1 msgs ++ frame tmpbuf1 m := by
  simp [frames]

/-- The step loses no byte: a part that is followed by another one does not fill
the batch, and bytes are accepted only while no call has failed, and then all of
the batch or too few of them to end the writing loop. -/
def Lossless (s : State) (i : Input) : Prop :=
  match s.pc, i with
  | .fill, .go => ∀ m ∈ s.queue.head?, m.flags.more = true →
      s.out.length < outBatchSize → s.out.length + 6 + m.size < outBatchSize
  | .sending nsent, .write (.sent nbytes) => 0 < nbytes → ¬ failed s ∧
      (nbytes = s.out.length ∨ (nsent + nbytes) % 2 ^ 32 < s.out.length - nbytes)
  | _, _ => True

instance (s : State) (i : Input) : Decidable (Lossless s i) := by
  unfold Lossless
  split <;> infer_instance

/-- Where the bytes of the pulled messages are at each place of `data_out_event`:
accepted, in the batch, or still owed by the encoder. -/
inductive Account (tmpbuf1 : UInt8) (s : State) : Pc → Prop where
  | idle (bytes : accepted s = frames tmpbuf1 s.pulled) (drained : rest s.encoder = [])
      (complete : s.isMsgEnd = true) (free : s.lastRemote = uint16Max) : Account tmpbuf1 s .idle
  | top (bytes : accepted s ++ rest s.encoder = frames tmpbuf1 s.pulled)
      (complete : s.isMsgEnd = true) (free : s.lastRemote = uint16Max) : Account tmpbuf1 s .top
  | fill (bytes : accepted s ++ (s.out.map Prod.fst ++ rest s.encoder) = frames tmpbuf1 s.pulled)
      (room : s.isMsgEnd = false → s.out.length < outBatchSize)
      (free : s.isMsgEnd = true → s.lastRemote = uint16Max) : Account tmpbuf1 s .fill
  | sending {nsent : Nat}
      (bytes : accepted s ++ (s.out.map Prod.fst ++ rest s.encoder) = frames tmpbuf1 s.pulled)
      (left : nsent < s.out.length) (complete : s.isMsgEnd = true) :
      Account tmpbuf1 s (.sending nsent)
  | aborted (bytes : accepted s <+: frames tmpbuf1 s.pulled) : Account tmpbuf1 s .aborted

/-- The queue continues the message whose parts were pulled last. -/
def Continues (s : State) : Prop :=
  ∃ mid, wholeParts mid s.queue = true ∧ (mid = none ↔ s.isMsgEnd = true) ∧
    ∀ r ∈ mid, s.lastRemote = r % 2 ^ 16

section Steps
variable {pc : Pc} {answer : Answer} {nsent : Nat} {nbytes : Int} {m : Msg} {bytes : List UInt8}
  {e : Encoder} {tmpbuf1 : UInt8} {s t : State} {i : Input}

theorem Account.bytes_le (account : Account tmpbuf1 s pc) :
    accepted s <+: frames tmpbuf1 s.pulled := by
  cases account with
  | idle bytes => exact ⟨[], by rw [append_nil, bytes]⟩
  | top bytes | fill bytes | sending bytes => exact ⟨_, bytes⟩
  | aborted bytes => exact bytes

theorem turn_log (turn : Turn s i t) :
    (∃ answer nsent nbytes, i = .write answer ∧ s.pc = .sending nsent ∧
      answer.fits s.out.length = true ∧ tcpWrite answer = some nbytes ∧
      Wrote s nsent nbytes t) ∨ (t.calls = s.calls ∧ s.pulled <+: t.pulled) := by
  cases turn with
  | written pc fits result => exact Or.inl ⟨_, _, _, rfl, pc, fits, result, write_wrote _ _ _⟩
  | conflict | part | last => exact Or.inr ⟨rfl, prefix_append _ _⟩
  | call | batchNone | batch | leave | refused | arrive => exact Or.inr ⟨rfl, prefix_refl _⟩

theorem frames_mono {msgs later : List Msg} (h : msgs <+: later) :
    frames tmpbuf1 msgs <+: frames tmpbuf1 later := by
  obtain ⟨more, rfl⟩ := h
  exact ⟨frames tmpbuf1 more, by simp [frames]⟩

theorem accepted_write (hwrote : Wrote s nsent nbytes t) :
    accepted t = accepted s ++ (s.out.take nbytes.toNat).map Prod.fst := by
  cases hwrote <;> simp [accepted, logged, Call.taken]

theorem failed_write (hwrote : Wrote s nsent nbytes t) : failed t ↔ failed s ∨ nbytes < 0 := by
  cases hwrote <;> simp [failed, logged, or_and_right, exists_or]

theorem tcpWrite_pos (h : tcpWrite answer = some nbytes) (hpos : 0 < nbytes) :
    answer = .sent nbytes.toNat := by
  cases answer with
  | sent n =>
    cases h
    simp
  | error errno => cases errno <;> simp [tcpWrite] at h <;> omega

theorem Lossless.sent (lossless : Lossless s (.write answer)) (pc : s.pc = .sending nsent)
    (result : tcpWrite answer = some nbytes) (hpos : 0 < nbytes) : ¬ failed s ∧
      (nbytes.toNat = s.out.length ∨
        (nsent + nbytes.toNat) % 2 ^ 32 < s.out.length - nbytes.toNat) := by
  have hsent := tcpWrite_pos result hpos
  subst hsent
  simp only [Lossless, pc] at lossless
  exact lossless (by omega)

theorem bytes_appended {own : Bool} {size : Nat} (queue : List Msg)
    (idle : s.encoder.inProgress = none) (htmp : s.encoder.tmpbuf1 = tmpbuf1)
    (encoded : Encoded own size m (frame s.encoder.tmpbuf1 m) s.encoder bytes e)
    (h : accepted s ++ (s.out.map Prod.fst ++ rest s.encoder) = frames tmpbuf1 s.pulled) :
    accepted s ++ ((appended s m queue bytes e).out.map Prod.fst ++
      rest (appended s m queue bytes e).encoder) =
        frames tmpbuf1 (appended s m queue bytes e).pulled := by
  have hfst : (tag m bytes).map Prod.fst = bytes := by
    simp [tag, Function.comp_def]
  have hbytes : bytes ++ rest e = frame tmpbuf1 m := by
    rw [encoded.bytes, htmp]
  rw [rest_of_idle idle, append_nil] at h
  simp only [appended, map_append, hfst, frames_append_singleton, ← h, ← hbytes, append_assoc]

theorem continues_appended {queue : List Msg} (continues : Continues s)
    (pull : s.queue = m :: queue) : Continues { appended s m queue bytes e with pc := pc } := by
  obtain ⟨mid, hparts, -, -⟩ := continues
  rw [pull] at hparts
  simp only [wholeParts, Bool.and_eq_true] at hparts
  refine ⟨_, hparts.2, ?_, ?_⟩
  · cases hmore : m.flags.more <;> simp [appended, hmore]
  intro r hr
  split at hr
  · cases hr
    rfl
  · cases hr

/-- A part that does not fill the batch is encoded completely. -/
theorem length_of_room {own : Bool} {size : Nat}
    (encoded : Encoded own size m (frame s.encoder.tmpbuf1 m) s.encoder bytes e) :
    bytes.length ≤ 6 + m.size := by
  have h := congrArg length encoded.bytes
  simp only [length_append, frame, length_header] at h
  have hsize : m.size = m.data.length := rfl
  omega

theorem account_leaves (leaves : Leaves s pc)
    (bytes : accepted s ++ (s.out.map Prod.fst ++ rest s.encoder) = frames tmpbuf1 s.pulled)
    (complete : s.isMsgEnd = true)
    (clear : s.out = [] → rest s.encoder = [] ∧ s.lastRemote = uint16Max) :
    Account tmpbuf1 { s with pc := pc } pc := by
  cases leaves with
  | send nonempty => exact .sending bytes (length_pos_iff.mpr nonempty) complete
  | clear empty =>
    obtain ⟨hrest, hfree⟩ := clear empty
    refine .idle ?_ hrest complete hfree
    simpa [accepted, empty, hrest] using bytes
  | discard nonempty cut =>
    rw [complete] at cut
    cases cut

theorem Account.arrive (account : Account tmpbuf1 s pc) (queue : List Msg) :
    Account tmpbuf1 { s with queue := queue } pc := by
  cases account with
  | idle bytes drained complete free => exact .idle bytes drained complete free
  | top bytes complete free => exact .top bytes complete free
  | fill bytes room free => exact .fill bytes room free
  | sending bytes left complete => exact .sending bytes left complete
  | aborted bytes => exact .aborted bytes

/-- While the parts of a message are being collected the next one is there and
belongs to it. -/
theorem Continues.next_part (continues : Continues s) (cut : s.isMsgEnd = false) :
    ∃ m queue, s.queue = m :: queue ∧ s.lastRemote = remote m := by
  obtain ⟨mid, hparts, hend, hremote⟩ := continues
  cases hmid : mid with
  | none =>
    have := hend.mp hmid
    rw [cut] at this
    cases this
  | some r =>
    subst hmid
    cases hqueue : s.queue with
    | nil => simp [hqueue, wholeParts] at hparts
    | cons m queue =>
      simp only [hqueue, wholeParts, Bool.and_eq_true, Option.all_some, beq_iff_eq] at hparts
      refine ⟨m, queue, rfl, ?_⟩
      rw [hremote r rfl, hparts.1, remote]

theorem account_write (account : Account tmpbuf1 s s.pc) (continues : Continues s)
    (pc : s.pc = .sending nsent) (result : tcpWrite answer = some nbytes)
    (lossless : Lossless s (.write answer)) (hwrote : Wrote s nsent nbytes t) :
    (failed t ∧ accepted t = accepted s ∧ t.pulled = s.pulled) ∨
      (Account tmpbuf1 t t.pc ∧ Continues t) := by
  have haccepted := accepted_write hwrote
  have hfailed := failed_write hwrote
  rw [pc] at account
  cases account with
  | sending bytes left complete =>
  -- With the last part pulled, `Continues` does not depend on `last_remote`.
  obtain ⟨mid, hparts, hmid, -⟩ := continues
  obtain rfl := hmid.mpr complete
  have hbytes : accepted t ++ ((s.out.drop nbytes.toNat).map Prod.fst ++ rest s.encoder) =
      frames tmpbuf1 s.pulled := by
    rw [haccepted, append_assoc, ← append_assoc ((s.out.take _).map _), ← map_append,
      take_append_drop]
    exact bytes
  cases hwrote with
  | failed neg =>
    have hnone : nbytes.toNat = 0 := by omega
    refine Or.inl ⟨hfailed.mpr (Or.inr neg), ?_, rfl⟩
    rw [haccepted, hnone]
    simp
  | blocked zero =>
    refine Or.inr ⟨?_, none, hparts, hmid, nofun⟩
    subst zero
    change Account tmpbuf1 _ s.pc
    rw [pc]
    exact .sending hbytes left complete
  | goesOn pos less =>
    refine Or.inr ⟨.sending hbytes ?_ complete, none, hparts, hmid, nofun⟩
    rw [length_drop]
    exact less
  | stops pos reached =>
    refine Or.inr ⟨.top ?_ complete rfl, none, hparts, hmid, nofun⟩
    have hall := (lossless.sent pc result pos).2.resolve_right reached
    rw [drop_of_length_le (Nat.le_of_eq hall.symm)] at hbytes
    exact hbytes

theorem turn_account (sane : Sane tmpbuf1 s) (account : Account tmpbuf1 s s.pc)
    (continues : Continues s) (lossless : Lossless s i) (turn : Turn s i t) :
    (failed t ∧ accepted t = accepted s ∧ t.pulled = s.pulled) ∨
      (Account tmpbuf1 t t.pc ∧ Continues t) := by
  cases turn with
  | call pc =>
    rw [pc] at account
    cases account with
    | idle bytes drained complete free =>
    refine Or.inr ⟨.top ?_ complete free, continues⟩
    simpa [drained, accepted] using bytes
  | batchNone pc idle =>
    rw [pc] at account
    cases account with
    | top bytes complete free =>
    refine Or.inr ⟨.fill ?_ (by simp [complete]) (fun _ => free), continues⟩
    simpa [accepted] using bytes
  | batch pc loaded encoded =>
    rw [pc] at account
    cases account with
    | top bytes complete free =>
    refine Or.inr ⟨.fill ?_ (by simp [complete]) (fun _ => free), continues⟩
    rw [← encoded.bytes] at bytes
    simpa [accepted, tag, Function.comp_def] using bytes
  | conflict pc pull held differs =>
    -- Before a failure the pulled part belongs to the message `last_remote` is from.
    rw [pc] at account
    cases account with
    | fill bytes room free =>
    cases hend : s.isMsgEnd with
    | true => exact absurd (free hend) held
    | false =>
      obtain ⟨m, queue, hqueue, hremote⟩ := continues.next_part hend
      rw [pull] at hqueue
      cases hqueue
      exact absurd hremote differs
  | @part m queue own bytes' e pc room pull agrees encoded produced more =>
    rw [pc] at account
    cases account with
    | fill bytes =>
    refine Or.inr ⟨.fill ?_ ?_ ?_, continues_appended continues pull⟩
    · exact bytes_appended queue (sane.drained pc room) sane.tmpbuf1 encoded bytes
    · intro _
      have hroom : s.out.length + 6 + m.size < outBatchSize := by
        have h := lossless
        simp only [Lossless, pc, pull, head?_cons, Option.mem_def, Option.some.injEq,
          forall_eq'] at h
        exact h more room
      have hlen := length_of_room encoded
      simp only [appended, tag, length_append, length_map]
      omega
    · intro h
      simp [appended, more] at h
  | last pc room pull agrees encoded produced ends leaves =>
    rw [pc] at account
    cases account with
    | fill bytes =>
    refine Or.inr ⟨?_, continues_appended continues pull⟩
    apply account_leaves leaves
    · exact bytes_appended _ (sane.drained pc room) sane.tmpbuf1 encoded bytes
    · simp [appended, ends]
    · intro hempty
      simp [appended, tag, produced] at hempty
  | leave pc why leaves =>
    rw [pc] at account
    cases account with
    | fill bytes room free =>
    have hend : s.isMsgEnd = true := by
      by_contra h
      have hcut : s.isMsgEnd = false := by simpa using h
      obtain ⟨m, queue, hqueue, -⟩ := continues.next_part hcut
      rw [why (room hcut)] at hqueue
      cases hqueue
    refine Or.inr ⟨?_, continues⟩
    apply account_leaves leaves bytes hend
    intro hempty
    exact ⟨rest_of_idle (sane.drained pc (by simp [hempty, outBatchSize])), free hend⟩
  | refused pc => exact Or.inr ⟨.aborted account.bytes_le, continues⟩
  | written pc fits result =>
    exact account_write account continues pc result lossless (write_wrote _ _ _)
  | arrive whole =>
    obtain ⟨mid, hparts, hmid, hremote⟩ := continues
    exact Or.inr ⟨account.arrive _, mid, wholeParts_append hparts whole, hmid, hremote⟩

/-- The invariant of a lossless run. After a failure only the prefix is left. -/
structure Streamed (tmpbuf1 : UInt8) (s : State) : Prop where
  sane : Sane tmpbuf1 s
  bytes : accepted s <+: frames tmpbuf1 s.pulled
  account : ¬ failed s → Account tmpbuf1 s s.pc ∧ Continues s

theorem accepted_eq_of_failed (hfailed : failed s) (lossless : Lossless s i) (turn : Turn s i t) :
    accepted t = accepted s ∧ s.pulled <+: t.pulled ∧ failed t := by
  rcases turn_log turn with ⟨answer, nsent, nbytes, rfl, pc, -, result, hwrote⟩ | ⟨hcalls, hpulled⟩
  · have hle : nbytes ≤ 0 := by
      by_contra hpos
      exact (lossless.sent pc result (by omega)).1 hfailed
    have hzero : nbytes.toNat = 0 := by omega
    refine ⟨?_, ?_, (failed_write hwrote).mpr (Or.inl hfailed)⟩
    · rw [accepted_write hwrote, hzero]
      simp
    · cases hwrote <;> exact prefix_rfl
  · refine ⟨by rw [accepted, hcalls, accepted], hpulled, ?_⟩
    rw [failed, hcalls]
    exact hfailed

theorem streamed_step (h : Streamed tmpbuf1 s) (lossless : Lossless s i)
    (hstep : step s i = some t) : Streamed tmpbuf1 t := by
  have turn := step_turn h.sane hstep
  by_cases hfailed : failed s
  · obtain ⟨hsame, hpulled, hfailed⟩ := accepted_eq_of_failed hfailed lossless turn
    refine ⟨turn_sane h.sane turn, ?_, fun hn => absurd hfailed hn⟩
    rw [hsame]
    exact h.bytes.trans (frames_mono hpulled)
  · obtain ⟨account, continues⟩ := h.account hfailed
    rcases turn_account h.sane account continues lossless turn with
      ⟨hnow, hsame, hpulled⟩ | ⟨haccount, hcontinues⟩
    · refine ⟨turn_sane h.sane turn, ?_, fun hn => absurd hnow hn⟩
      rw [hsame, hpulled]
      exact h.bytes
    · exact ⟨turn_sane h.sane turn, haccount.bytes_le, fun _ => ⟨haccount, hcontinues⟩⟩

theorem initial_streamed (tmpbuf1 : UInt8) : Streamed tmpbuf1 (initial tmpbuf1) :=
  ⟨initial_sane tmpbuf1, nil_prefix,
    fun _ => ⟨.idle rfl rfl rfl rfl, none, rfl, by simp [initial], by simp⟩⟩

theorem streamed_of_reach (h : Reach (· = initial tmpbuf1) Lossless step s) :
    Streamed tmpbuf1 s := by
  apply h.invariant
  · rintro s rfl
    exact initial_streamed tmpbuf1
  · intro s i t hs lossless hstep
    exact streamed_step hs lossless hstep

/-- In a run of lossless steps the accepted bytes are a prefix of the encoded
messages at every moment, and all of them when a call has returned and none failed. -/
theorem accepted_of_lossless (tmpbuf1 : UInt8) (s : State)
    (h : Reach (· = initial tmpbuf1) Lossless step s) :
    accepted s <+: frames tmpbuf1 s.pulled ∧
      (¬ failed s → s.pc = .idle → accepted s = frames tmpbuf1 s.pulled) := by
  have streamed := streamed_of_reach h
  refine ⟨streamed.bytes, ?_⟩
  intro hfailed pc
  have account := (streamed.account hfailed).1
  rw [pc] at account
  cases account with
  | idle bytes => exact bytes

end Steps

/-- A message of two parts, sent in three calls of which the second would block. -/
def twoPartRun : List Input :=
  [.arrive [{ type := .lmsg, flags := { more := true }, data := [1, 2], remoteId := 9 },
      { type := .lmsg, data := [3], remoteId := 9 }],
    .call, .go, .go, .go, .write (.sent 4), .write (.error .eagain), .write (.sent 11), .go, .go]

theorem twoPartRun_accepted :
    ∃ s, Reach (· = initial 0) Lossless step s ∧ s.pulled.length = 2 ∧
      accepted s = frames 0 s.pulled := by
  obtain ⟨s, hreach, hpulled, hfailed, hpc⟩ : ∃ s, Reach (· = initial 0) Lossless step s ∧
      s.pulled.length = 2 ∧ ¬ failed s ∧ s.pc = .idle := by
    refine Reach.of_exec (s := initial 0) Lossless step twoPartRun ?_ rfl
    decide +kernel
  exact ⟨s, hreach, hpulled, (accepted_of_lossless 0 s hreach).2 hfailed hpc⟩

/-- Ten bytes are offered and five of them accepted: five are left and five were
sent, so the writing loop ends. The next message follows the first half. -/
def halfWrittenRun : List Input :=
  [.arrive [{ type := .lmsg, data := [1, 2, 3, 4], remoteId := 9 }], .call, .go, .go,
    .write (.sent 5), .arrive [{ type := .lmsg, data := [7], remoteId := 9 }], .go, .go,
    .write (.sent 7), .go, .go]

theorem half_written_diverges :
    ∃ s, Reach (· = initial 0) Always step s ∧ s.pc = .idle ∧ ¬ failed s ∧
      accepted s = [2, 0, 0, 0, 0, 2, 0, 0, 0, 0, 1, 7] ∧ ¬ accepted s <+: frames 0 s.pulled := by
  refine Reach.of_exec (s := initial 0) Always step halfWrittenRun ?_ rfl
  decide +kernel

end Uzmq.DataOutStream
