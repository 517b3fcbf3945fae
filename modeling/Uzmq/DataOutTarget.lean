import Uzmq.DataOutEvent

/-!
# The target of the bytes on a data connection

The target of a batch is the remote id of the first message loaded into it. The
tail of a message that did not fit the previous batch is put at the front of the
next one without setting the target again: it goes out without a target or with
the one of the message behind it.
-/

namespace Uzmq.DataOutTarget

open List
open Message V2Encoder DataOutEvent Runs

/-- Ids are below the value that stands for "no target", and when a turn starts
without a target nothing is left of an earlier message, or the batch has room
behind the rest and the next message is for the same node. -/
def TailSafe (s : State) (i : Input) : Prop :=
  match s.pc, i with
  | .top, .go => s.lastRemote = uint16Max → ∀ m ∈ s.encoder.inProgress, rest s.encoder ≠ [] →
      (rest s.encoder).length < outBatchSize ∧
        ∃ next ∈ s.queue.head?, next.getRemoteId = m.getRemoteId
  | _, .arrive parts => ∀ m ∈ parts, m.getRemoteId < uint16Max
  | _, _ => True

instance (s : State) (i : Input) : Decidable (TailSafe s i) := by
  unfold TailSafe
  generalize s.pc = pc
  induction pc using Pc.casesOn <;> induction i using Input.casesOn <;> infer_instance

structure Targeted (s : State) : Prop where
  ids : ∀ m ∈ s.queue, m.getRemoteId < uint16Max
  held : s.lastRemote ≠ uint16Max → ∀ m ∈ s.encoder.inProgress, m.getRemoteId = s.lastRemote
  filling : s.pc = .fill → s.lastRemote ≠ uint16Max → ∀ b ∈ s.out, b.2 = s.lastRemote
  tail : s.pc = .fill → s.lastRemote = uint16Max → ∀ b ∈ s.out,
    s.out.length < outBatchSize ∧ ∃ next ∈ s.queue.head?, next.getRemoteId = b.2
  sending : ∀ nsent, s.pc = .sending nsent → ∀ b ∈ s.out, b.2 = s.lastRemote
  calls : ∀ c ∈ s.calls, ∀ b ∈ c.offered, b.2 = c.target

section Steps
variable {m : Msg} {bytes : List UInt8} {e : Encoder} {queue : List Msg} {tmpbuf1 : UInt8}
  {s t : State} {i : Input}

theorem remote_of_lt (h : m.getRemoteId < uint16Max) : remote m = m.getRemoteId := by
  apply Nat.mod_eq_of_lt
  unfold uint16Max at h
  omega

theorem mem_tag {b : UInt8 × Nat} (h : b ∈ tag m bytes) : b.2 = m.getRemoteId := by
  obtain ⟨byte, -, rfl⟩ := mem_map.mp h
  rfl

theorem inProgress_of_encoded {owed : List UInt8} {own : Bool} {size : Nat} {e' : Encoder}
    (encoded : Encoded own size m owed e bytes e') : ∀ n ∈ e'.inProgress, n = m := by
  intro n hn
  rcases encoded.progress with h | h
  · rw [h] at hn
    exact (Option.some.inj hn).symm
  · rw [h] at hn
    cases hn

section
variable (h : Targeted s) (pc : s.pc = .fill) (pull : s.queue = m :: queue)
  (agrees : s.lastRemote = uint16Max ∨ s.lastRemote = remote m)
include h pc pull agrees

/-- A message put behind the batch has the target of what is in the batch already. -/
theorem Targeted.out_appended (bytes : List UInt8) (e : Encoder) :
    ∀ b ∈ (appended s m queue bytes e).out, b.2 = remote m := by
  have hremote := remote_of_lt (h.ids m (by simp [pull]))
  intro b hb
  rcases mem_append.mp hb with hold | hnew
  · by_cases hmax : s.lastRemote = uint16Max
    · obtain ⟨-, next, hnext, hid⟩ := h.tail pc hmax b hold
      rw [pull] at hnext
      cases hnext
      rw [hremote, hid]
    · rw [h.filling pc hmax b hold]
      exact agrees.resolve_left hmax
  · rw [mem_tag hnew, hremote]

theorem Targeted.appended {owed : List UInt8} {own : Bool} {size : Nat}
    (encoded : Encoded own size m owed s.encoder bytes e) (pc' : Pc) :
    Targeted { appended s m queue bytes e with pc := pc' } where
  ids := by
    intro n hn
    exact h.ids n (by rw [pull]; exact mem_cons_of_mem _ hn)
  held := by
    intro _ n hn
    rw [inProgress_of_encoded encoded n hn]
    exact (remote_of_lt (h.ids m (by simp [pull]))).symm
  filling := fun _ _ => h.out_appended pc pull agrees bytes e
  tail := by
    intro _ hmax
    have hlt := h.ids m (by simp [pull])
    rw [← remote_of_lt hlt] at hlt
    exact absurd hmax (Nat.ne_of_lt hlt)
  sending := fun _ _ => h.out_appended pc pull agrees bytes e
  calls := h.calls

end

/-- Leaving the filling loop because nothing is left to pull or the batch is full:
then the batch has a target. -/
theorem Targeted.leave (h : Targeted s) (pc : s.pc = .fill)
    (why : s.out.length < outBatchSize → s.queue = []) {pc' : Pc} (leaves : Leaves s pc') :
    Targeted { s with pc := pc' } := by
  refine ⟨h.ids, h.held, ?_, ?_, ?_, h.calls⟩
  · intro hpc
    exact absurd hpc leaves.pc_ne_fill
  · intro hpc
    exact absurd hpc leaves.pc_ne_fill
  intro nsent _ b hb
  by_cases hmax : s.lastRemote = uint16Max
  · obtain ⟨hroom, next, hnext, -⟩ := h.tail pc hmax b hb
    rw [why hroom] at hnext
    cases hnext
  · exact h.filling pc hmax b hb

theorem Targeted.batch (h : Targeted s) (pc : s.pc = .top) (loaded : s.encoder.inProgress = some m)
    (encoded : Encoded true outBatchSize m (rest s.encoder) s.encoder bytes e)
    (safe : TailSafe s .go) :
    Targeted { s with encoder := e, out := tag m bytes, outNull := false, pc := .fill } where
  ids := h.ids
  held := by
    intro hne n hn
    rw [inProgress_of_encoded encoded n hn]
    exact h.held hne m loaded
  filling := by
    intro _ hne b hb
    rw [mem_tag hb]
    exact h.held hne m loaded
  tail := by
    intro _ hmax b hb
    have hcond : ∀ m ∈ s.encoder.inProgress, rest s.encoder ≠ [] →
        (rest s.encoder).length < outBatchSize ∧
          ∃ next ∈ s.queue.head?, next.getRemoteId = m.getRemoteId := by
      have hsafe := safe
      simp only [TailSafe, pc] at hsafe
      exact hsafe hmax
    have hsome : rest s.encoder ≠ [] := by
      intro hnil
      have hbytes := encoded.bytes
      rw [hnil] at hbytes
      simp [(append_eq_nil_iff.mp hbytes).1, tag] at hb
    obtain ⟨hlen, hnext⟩ := hcond m loaded hsome
    have hle : bytes.length ≤ (rest s.encoder).length := by
      rw [← encoded.bytes, length_append]
      omega
    refine ⟨?_, ?_⟩
    · simp only [tag, length_map]
      omega
    · rw [mem_tag hb]
      exact hnext
  sending := by rintro nsent ⟨⟩
  calls := h.calls

theorem Targeted.write {nsent : Nat} {nbytes : Int} (h : Targeted s) (pc : s.pc = .sending nsent)
    (hwrote : Wrote s nsent nbytes t) : Targeted t := by
  have hlog : ∀ c ∈ (logged s nbytes).calls, ∀ b ∈ c.offered, b.2 = c.target :=
    forall_mem_append.mpr ⟨h.calls, forall_mem_singleton.mpr (h.sending nsent pc)⟩
  cases hwrote with
  | failed => exact ⟨h.ids, h.held, nofun, nofun, nofun, hlog⟩
  | blocked => exact { h with calls := hlog }
  | goesOn =>
    refine ⟨h.ids, h.held, nofun, nofun, ?_, hlog⟩
    intro _ _ b hb
    exact h.sending nsent pc b (mem_of_mem_drop hb)
  | stops => exact ⟨h.ids, fun hne => absurd rfl hne, nofun, nofun, nofun, hlog⟩

theorem turn_targeted (h : Targeted s) (safe : TailSafe s i) (turn : Turn s i t) : Targeted t := by
  cases turn with
  | call | refused => exact ⟨h.ids, h.held, by rintro ⟨⟩, by rintro ⟨⟩, by rintro nsent ⟨⟩, h.calls⟩
  | batchNone pc idle =>
    refine ⟨h.ids, h.held, ?_, ?_, by rintro nsent ⟨⟩, h.calls⟩
    · rintro - - b ⟨⟩
    · rintro - - b ⟨⟩
  | batch pc loaded encoded => exact h.batch pc loaded encoded safe
  | conflict pc pull =>
    refine ⟨?_, h.held, by rintro ⟨⟩, by rintro ⟨⟩, by rintro nsent ⟨⟩, h.calls⟩
    intro n hn
    exact h.ids n (by rw [pull]; exact mem_cons_of_mem _ hn)
  | part pc room pull agrees encoded => exact h.appended pc pull agrees encoded .fill
  | last pc room pull agrees encoded => exact h.appended pc pull agrees encoded _
  | leave pc why leaves => exact h.leave pc why leaves
  | written pc => exact h.write pc (write_wrote _ _ _)
  | @arrive parts whole =>
    have hparts : ∀ m ∈ parts, m.getRemoteId < uint16Max := by
      have hsafe := safe
      unfold TailSafe at hsafe
      split at hsafe <;> simp_all
    refine { h with ids := ?_, tail := ?_ }
    · exact forall_mem_append.mpr ⟨h.ids, hparts⟩
    · intro hpc hmax b hb
      obtain ⟨hroom, next, hnext, hid⟩ := h.tail hpc hmax b hb
      exact ⟨hroom, next, by simp_all, hid⟩

theorem initial_targeted (tmpbuf1 : UInt8) : Targeted (initial tmpbuf1) := by
  refine ⟨?_, ?_, by rintro ⟨⟩, by rintro ⟨⟩, by rintro nsent ⟨⟩, ?_⟩
  · rintro m ⟨⟩
  · rintro - m ⟨⟩
  · rintro c ⟨⟩

/-- In a run in which no tail is put into a batch without a target, every byte is
handed over with the id of its message, so no call has bytes for two nodes. -/
theorem target_of_tailSafe (tmpbuf1 : UInt8) (s : State)
    (h : Reach (· = initial tmpbuf1) TailSafe step s) :
    ∀ c ∈ s.calls, (∀ b ∈ c.offered, b.2 = c.target) ∧
      ∀ b ∈ c.offered, ∀ b' ∈ c.offered, b.2 = b'.2 := by
  have hinv : Sane tmpbuf1 s ∧ Targeted s := by
    apply h.invariant
    · rintro s rfl
      exact ⟨initial_sane tmpbuf1, initial_targeted tmpbuf1⟩
    · intro s i t hs safe hstep
      have turn := step_turn hs.1 hstep
      exact ⟨turn_sane hs.1 turn, turn_targeted hs.2 safe turn⟩
  intro c hc
  refine ⟨hinv.2.calls c hc, ?_⟩
  intro b hb b' hb'
  rw [hinv.2.calls c hc b hb, hinv.2.calls c hc b' hb']

end Steps

/-- Two messages for different nodes, the first one in two calls. -/
def twoTargetsRun : List Input :=
  [.arrive [{ type := .lmsg, data := [1, 2], remoteId := 9 },
      { type := .lmsg, data := [3], remoteId := 10 }],
    .call, .go, .go, .write (.sent 2), .write (.sent 6), .go, .go, .write (.sent 7)]

theorem twoTargetsRun_targets :
    ∃ s, Reach (· = initial 0) TailSafe step s ∧ s.calls.map Call.target = [9, 9, 10] ∧
      ∀ c ∈ s.calls, ∀ b ∈ c.offered, b.2 = c.target := by
  refine Reach.of_exec_right (s := initial 0) TailSafe step twoTargetsRun ?_ rfl
    fun s hs c hc => (target_of_tailSafe 0 s hs c hc).1
  decide +kernel

section LongMessages
variable {tmpbuf1 : UInt8} {m : Msg}

/-- Three turns of the loop: the header, as much of the body as fits, and the test
that finds the buffer full. -/
theorem encodeLoop_cut (own : Bool) (size fuel : Nat) (e : Encoder)
    (hwrite : e.toWrite = header e.tmpbuf1 m) (hflag : e.newMsgFlag = false)
    (hnext : e.next = .sizeReady) (hsize : 6 < size) (hlong : size ≤ 6 + m.data.length) :
    encodeLoop own size m (fuel + 3) e [] =
      (header e.tmpbuf1 m ++ m.data.take (size - 6),
        { sizeReady e m with toWrite := m.data.drop (size - 6) }) := by
  have hne : (header e.tmpbuf1 m).isEmpty = false := rfl
  have hpos : 0 < size := by omega
  have hle : ¬ size ≤ 6 := by omega
  have hheader : min 6 size = 6 := by omega
  have hbody : min m.data.length (size - 6) = size - 6 := by omega
  have hfull : 6 + (size - 6) = size := by omega
  have htake : (header e.tmpbuf1 m).take 6 = header e.tmpbuf1 m := rfl
  have hdrop : (header e.tmpbuf1 m).drop 6 = [] := rfl
  rw [encodeLoop]
  simp only [length_nil, hpos, if_true, hwrite, hne, Bool.false_and, Bool.false_eq_true,
    if_false, length_header, hle, decide_false, Bool.and_false, Nat.sub_zero, hheader, htake,
    hdrop, nil_append]
  rw [encodeLoop]
  simp only [length_header, hsize, if_true, isEmpty_nil, hflag, Bool.and_false,
    Bool.false_eq_true, if_false, runNext, hnext, sizeReady, hbody, hne, Bool.false_and]
  rw [encodeLoop]
  simp only [length_append, length_header, length_take, hbody, Nat.min_comm, hfull,
    Nat.lt_irrefl, if_false]

/-- The encoder and the batch after the first part of a message that does not fit. -/
def cutEncoder (tmpbuf1 : UInt8) (m : Msg) : Encoder where
  toWrite := m.data.drop (outBatchSize - 6)
  next := .messageReady
  newMsgFlag := true
  bufsize := outBatchSize
  inProgress := some m
  tmpbuf1 := tmpbuf1

def firstBatch (tmpbuf1 : UInt8) (m : Msg) : List UInt8 :=
  header tmpbuf1 m ++ m.data.take (outBatchSize - 6)

theorem length_firstBatch (long : outBatchSize < 6 + m.data.length) :
    (firstBatch tmpbuf1 m).length = outBatchSize := by
  simp only [firstBatch, length_append, length_header, length_take]
  unfold outBatchSize at long ⊢
  omega

/-- The engine when it is about to write the first batch of a lone message. -/
def cutState (tmpbuf1 : UInt8) (m : Msg) : State where
  encoder := cutEncoder tmpbuf1 m
  out := tag m (firstBatch tmpbuf1 m)
  outNull := false
  lastRemote := remote m
  isMsgEnd := true
  isHot := m.flags.netmlHotdata
  pc := .sending 0
  queue := []
  pulled := [m]
  calls := []

theorem reach_cutState (ends : m.flags.more = false) (long : outBatchSize < 6 + m.data.length) :
    Reach (· = initial tmpbuf1) Always step (cutState tmpbuf1 m) := by
  have hencode : encode (messageReady { Encoder.new outBatchSize tmpbuf1 with
      inProgress := some m } m) .own = (firstBatch tmpbuf1 m, cutEncoder tmpbuf1 m) :=
    encodeLoop_cut true outBatchSize (outBatchSize - 1) _ rfl rfl rfl (by decide)
      (Nat.le_of_lt long)
  have harrive : Reach (· = initial tmpbuf1) Always step { initial tmpbuf1 with queue := [m] } :=
    .next (i := .arrive [m]) (.start rfl) trivial (by simp [step, wholeParts, ends, initial])
  have hcall : Reach (· = initial tmpbuf1) Always step
      { initial tmpbuf1 with queue := [m], pc := .top } := .next (i := .call) harrive trivial rfl
  have hfill : Reach (· = initial tmpbuf1) Always step
      { initial tmpbuf1 with queue := [m], pc := .fill } := .next (i := .go) hcall trivial rfl
  have hload : loadMsg (Encoder.new outBatchSize tmpbuf1) m =
      some (messageReady { Encoder.new outBatchSize tmpbuf1 with inProgress := some m } m) := rfl
  have hsome : firstBatch tmpbuf1 m ≠ [] := by simp [firstBatch, header]
  have hpull := loadNext_eq (s := { initial tmpbuf1 with queue := [m], pc := .fill }) []
    (Or.inl rfl) hload hencode hsome
  have hturn : fill { initial tmpbuf1 with queue := [m], pc := .fill } =
      loadNext { initial tmpbuf1 with queue := [m], pc := .fill } m [] := by
    simp [fill, initial, outBatchSize]
  apply Reach.next (i := .go) hfill trivial
  change some (fill _) = _
  rw [hturn, hpull, ends]
  simp [afterFill, appended, ends, cutState, initial, tag, hsome]

theorem step_write {nsent : Nat} {s : State} {answer : Answer} {nbytes : Int}
    (pc : s.pc = .sending nsent) (fits : answer.fits s.out.length = true)
    (result : tcpWrite answer = some nbytes) :
    step s (.write answer) = some (write s nsent nbytes) := by
  simp [step, pc, fits, result]

/-- A turn that starts without a target, with nothing to pull and something owed,
offers what it got from the encoder without a target. -/
theorem untargeted_of_owed {s : State} (reach : Reach (· = initial tmpbuf1) Always step s)
    (pc : s.pc = .top) (free : s.lastRemote = uint16Max) (hqueue : s.queue = [])
    (complete : s.isMsgEnd = true) (ready : Ready s.encoder)
    (loaded : s.encoder.inProgress = some m) (hbuf : 0 < s.encoder.bufsize)
    (owed : rest s.encoder ≠ []) :
    ∃ t, Reach (· = initial tmpbuf1) Always step t ∧ ∃ c ∈ t.calls,
      c.target = uint16Max ∧ c.offered ≠ [] ∧ ∀ b ∈ c.offered, b.2 = m.getRemoteId := by
  rcases hencode : encode s.encoder .own with ⟨bytes, e⟩
  have encoded := encode_spec ready loaded .own
  rw [hencode] at encoded
  have hbytes : bytes ≠ [] := by
    rintro rfl
    have hidle := encoded.short hbuf
    apply owed
    rw [← encoded.bytes, rest_of_idle hidle]
    rfl
  have hbatch : encodeBatch s =
      { s with encoder := e, out := tag m bytes, outNull := false, pc := .fill } := by
    simp [encodeBatch, loaded, hencode]
  have htag : tag m bytes ≠ [] := by simpa [tag] using hbytes
  have hsend : fill (encodeBatch s) =
      { s with encoder := e, out := tag m bytes, outNull := false, pc := .sending 0 } := by
    simp [hbatch, fill, hqueue, afterFill, complete, htag]
  have hfill : Reach (· = initial tmpbuf1) Always step (encodeBatch s) :=
    .next (i := .go) reach trivial (by simp [step, pc])
  have hsending : Reach (· = initial tmpbuf1) Always step (fill (encodeBatch s)) :=
    .next (i := .go) hfill trivial (by simp [step, hbatch])
  rw [hsend] at hsending
  refine ⟨_, .next (i := .write (.sent 0)) hsending trivial (step_write rfl rfl rfl),
    ⟨tag m bytes, s.lastRemote, s.isHot, 0⟩, ?_, free, htag, fun b => mem_tag⟩
  simp [write]

/-- The tail of a message that is longer than a batch is handed over without a
target when no other message follows. -/
theorem tail_untargeted (ends : m.flags.more = false)
    (long : outBatchSize < 6 + m.data.length) :
    ∃ s, Reach (· = initial tmpbuf1) Always step s ∧ ∃ c ∈ s.calls,
      c.target = uint16Max ∧ c.offered ≠ [] ∧ ∀ b ∈ c.offered, b.2 = m.getRemoteId := by
  have hlen : (cutState tmpbuf1 m).out.length = outBatchSize := by
    simp [cutState, tag, length_firstBatch long]
  have hfits : Answer.fits (cutState tmpbuf1 m).out.length (.sent outBatchSize) = true := by
    rw [hlen]
    decide
  have hwritten := Reach.next (@reach_cutState tmpbuf1 m ends long) trivial
    (step_write rfl hfits rfl)
  have howed : rest (cutEncoder tmpbuf1 m) ≠ [] := by
    have hdrop : ¬ m.data.length ≤ outBatchSize - 6 := by
      unfold outBatchSize at long ⊢
      omega
    simpa [rest, cutEncoder] using hdrop
  have hwrote := write_wrote (cutState tmpbuf1 m) 0 outBatchSize
  generalize write (cutState tmpbuf1 m) 0 outBatchSize = t at hwritten hwrote
  -- All of the batch is accepted, which resets the target.
  cases hwrote with
  | failed neg => exact absurd neg (by decide)
  | blocked zero => exact absurd zero (by decide)
  | goesOn pos less =>
    rw [hlen] at less
    exact absurd less (by decide)
  | stops =>
    refine untargeted_of_owed hwritten rfl rfl rfl rfl ⟨?_, by rintro ⟨⟩⟩ rfl ?_ howed
    · simp [logged, cutState, cutEncoder]
    · change 0 < outBatchSize
      decide

end LongMessages

/-- A body of 8187 bytes for node 9: the last byte goes out without a target. -/
theorem long_message_misses_target :
    ∃ s, Reach (· = initial 0) Always step s ∧
      ∃ c ∈ s.calls, ∃ b ∈ c.offered, b.2 = 9 ∧ c.target ≠ b.2 := by
  obtain ⟨s, hreach, c, hc, htarget, hsome, hids⟩ := @tail_untargeted 0
    { type := .lmsg, data := List.replicate 8187 0, remoteId := 9 } rfl
    (by rw [length_replicate]; decide)
  obtain ⟨b, hb⟩ := exists_mem_of_ne_nil _ hsome
  refine ⟨s, hreach, c, hc, b, hb, hids b hb, ?_⟩
  rw [htarget, hids b hb]
  decide

end Uzmq.DataOutTarget
