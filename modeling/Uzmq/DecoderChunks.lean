import Uzmq.DecoderStorage

/-!
# Reads of any size decode alike

The engine over memory does with each read what `Uzmq.V2Decoder.inEvent` does, and that decodes
like the decoder fed byte by byte. The position at which `EMSGSIZE` is reported is the one of the
byte that completes the size. Messages that were passed on keep their bodies while they are open,
since a buffer is used again only if nobody refers to it.
-/

namespace Uzmq.V2Decoder

open Uzmq.Message Uzmq.Wire

section Points

/-- The number of bytes after which `EMSGSIZE` is reported. -/
def point : Decoder → List UInt8 → Option Nat
  | _, [] => none
  | d, b :: later =>
    match settle 0 3 (d.store [b]) with
    | (.emsgsize, _) => some 1
    | (_, d) => (point d later).map (1 + ·)

/-- How `point` goes on after the actions of one step on `n` bytes. -/
def pointAfter (n : Nat) (r : Rc × Decoder) (later : List UInt8) : Option Nat :=
  match r with
  | (.emsgsize, _) => some n
  | (_, d) => (point d later).map (n + ·)

theorem point_cons (d : Decoder) (b : UInt8) (later : List UInt8) :
    point d (b :: later) = pointAfter 1 (settle 0 3 (d.store [b])) later := by
  simp only [point, pointAfter]

theorem map_add_map_add (x : Option Nat) (n k : Nat) :
    (x.map (k + ·)).map (n + ·) = x.map (n + k + ·) := by
  cases x with
  | none => rfl
  | some i => exact congrArg some (Nat.add_assoc n k i).symm

theorem pointAfter_congr (n : Nat) {r r' : Rc × Decoder} {later : List UInt8} (hrc : r.1 = r'.1)
    (hpoint : point r.2 later = point r'.2 later) :
    pointAfter n r later = pointAfter n r' later := by
  obtain ⟨rc, d⟩ := r
  obtain ⟨rc', d'⟩ := r'
  obtain rfl : rc = rc' := hrc
  cases rc with
  | emsgsize => rfl
  | zero | message => exact congrArg (Option.map (n + ·)) hpoint

theorem point_similar {d d' : Decoder} (same : d.erase = d'.erase) (bytes : List UInt8) :
    point d bytes = point d' bytes := by
  induction bytes generalizing d d' with
  | nil => rfl
  | cons b bytes ih =>
    obtain ⟨hrc, hstate⟩ := settle_erase (store_erase same [b]) 0 0 3
    exact pointAfter_congr 1 hrc (ih hstate)

theorem point_append (d : Decoder) (xs ys : List UInt8) :
    point d (xs ++ ys) = match run d xs with
      | (_, some e) => (point e ys).map (xs.length + ·)
      | (_, none) => point d xs := by
  induction xs generalizing d with
  | nil => simp [run]
  | cons b xs ih =>
    rw [List.cons_append, point_cons, point_cons, run_cons]
    rcases settle 0 3 (d.store [b]) with ⟨rc, e⟩
    have hlength : (b :: xs).length = 1 + xs.length := Nat.add_comm xs.length 1
    cases rc with
    | zero | message =>
      simp only [pointAfter, resume, ih e]
      rcases run e xs with ⟨msgs, _ | e'⟩
      · rfl
      · simp only [map_add_map_add, hlength]
    | emsgsize => rfl

theorem run_none_iff (d : Decoder) (bytes : List UInt8) :
    (run d bytes).2 = none ↔ (point d bytes).isSome := by
  induction bytes generalizing d with
  | nil => simp [run, point]
  | cons b bytes ih =>
    rw [point_cons, run_cons]
    rcases settle 0 3 (d.store [b]) with ⟨rc, e⟩
    cases rc with
    | zero | message => simp [pointAfter, resume, ih e]
    | emsgsize => simp [pointAfter, resume]

theorem point_of_isSome {d : Decoder} {bytes : List UInt8} (h : (run d bytes).2.isSome = true) :
    point d bytes = none := by
  cases hpoint : point d bytes with
  | none => rfl
  | some n =>
    rw [(run_none_iff d bytes).mpr (Option.isSome_of_eq_some hpoint)] at h
    cases h

theorem point_of_similar {d e : Decoder} {msgs : List Msg} {bytes : List UInt8}
    (h : Similar (run d bytes) (msgs, some e)) (rest : List UInt8) :
    point d (bytes ++ rest) = (point e rest).map (bytes.length + ·) := by
  rw [point_append]
  generalize run d bytes = r at h ⊢
  obtain ⟨ms, st⟩ := r
  cases st with
  | none => cases h.2
  | some d' =>
    exact congrArg (Option.map (bytes.length + ·)) (point_similar (Option.some.inj h.2) rest)

theorem point_of_failsLast {d : Decoder} {bytes : List UInt8} (h : FailsLast d bytes)
    (rest : List UInt8) : point d (bytes ++ rest) = some bytes.length := by
  obtain ⟨front, b, rfl, hsome, hnone⟩ := h
  rw [run_append] at hnone
  rw [List.append_assoc, List.singleton_append, point_append]
  generalize run d front = r at hsome hnone ⊢
  obtain ⟨msgs, st⟩ := r
  cases st with
  | none => cases hsome
  | some e =>
    dsimp only at hnone ⊢
    rw [run_cons] at hnone
    rw [point_cons, List.length_append]
    generalize settle 0 3 (e.store [b]) = s at hnone ⊢
    obtain ⟨rc, f⟩ := s
    cases rc with
    | emsgsize => rfl
    | zero | message => cases hnone

theorem act_maxSize (d : Decoder) (avail : Nat) : (act d avail).2.maxSize = d.maxSize := by
  have hsize : ∀ size, (sizeReady d size avail).2.maxSize = d.maxSize := by
    intro size
    unfold sizeReady
    split <;> rfl
  unfold act
  cases d.next with
  | flagsReady =>
    simp only [flagsReady]
    split
    · split <;> rfl
    · rfl
  | oneByteSizeReady | keySizeReady | fourByteSizeReady => exact hsize _
  | messageReady => rfl

theorem settle_maxSize (avail fuel : Nat) (d : Decoder) :
    (settle avail fuel d).2.maxSize = d.maxSize := by
  induction fuel generalizing d with
  | zero => rfl
  | succ fuel ih =>
    unfold settle
    split
    · have hact := act_maxSize d avail
      generalize act d avail = x at hact ⊢
      obtain ⟨rc, e⟩ := x
      cases rc with
      | zero => exact (ih e).trans hact
      | message | emsgsize => exact hact
    · rfl

theorem run_maxSize {d e : Decoder} {bytes : List UInt8} (h : (run d bytes).2 = some e) :
    e.maxSize = d.maxSize := by
  induction bytes generalizing d with
  | nil =>
    cases h
    rfl
  | cons b bytes ih =>
    rw [run_cons] at h
    have hsettle : (settle 0 3 (d.store [b])).2.maxSize = d.maxSize :=
      settle_maxSize 0 3 (d.store [b])
    generalize settle 0 3 (d.store [b]) = x at h hsettle
    obtain ⟨rc, d'⟩ := x
    cases rc with
    | zero | message => exact (ih h).trans hsettle
    | emsgsize => cases h

end Points

end Uzmq.V2Decoder

namespace Uzmq.DecoderMemory

open V2Decoder Option List Function
open Uzmq.Message (Flags Msg)
open Uzmq.V2Decoder (Rc Live point maxVsmSize)

variable {e : Engine} {d d' : Decoder} {r : V2Decoder.Decoder} {o : Nat} {rest : List UInt8}
  {held : List (Option Held)} {h : Held} {fuel k : Nat} {bytes : List UInt8}

section Held

/-- The references of a message that was passed on to a buffer. -/
def Held.refers (b : Nat) (h : Held) : Bool :=
  match h.content with
  | .shared hint _ => hint = b
  | _ => false

/-- The open messages that refer to a buffer. -/
def holds (held : List (Option Held)) (b : Nat) : Nat :=
  held.countP fun h => h.any (Held.refers b)

/-- Open messages have the bodies they had when they were passed on, and the counters of the
buffers count them. -/
structure Kept (e : Engine) : Prop where
  owned : Owned e.decoder
  clear : ∀ h, some h ∈ e.held → Clear e.decoder h
  length : e.held.length = e.seen.length
  bodies : ∀ (k : Nat) (h : Held), e.held[k]? = some (some h) →
    e.seen[k]? = some (h.body e.decoder.memory, h.flags)
  refs : ∀ b, e.decoder.refs b = (if e.decoder.buf = b then 1 else 0) +
    refers e.decoder.inProgress.storage b + holds e.held b

theorem Kept.frame (hk : Kept e) (hframe : Frame e.decoder d') : Kept { e with decoder := d' } := by
  constructor
  · exact hframe.owned hk.owned
  · exact fun h hmem => (hframe.held h (hk.clear h hmem)).1
  · exact hk.length
  · intro k h hget
    have hclear := hk.clear h (mem_of_getElem? hget)
    have hbody := (hframe.held h hclear).2
    have hseen := hk.bodies k h hget
    rw [← hbody] at hseen
    exact hseen
  · intro b
    have hbefore := hk.refs b
    have hrefs := hframe.refs b
    have hbuf : d'.buf = e.decoder.buf := hframe.buf
    change d'.refs b =
      (if d'.buf = b then 1 else 0) + refers d'.inProgress.storage b + holds e.held b
    rw [hbuf]
    omega

theorem taken_refers (d : Decoder) (b : Nat) :
    (if (d.taken.refers b) = true then 1 else 0) = refers d.inProgress.storage b := by
  unfold Held.refers Decoder.taken refers
  cases d.inProgress.storage <;> simp

theorem Kept.pushMsg (hk : Kept e) : Kept e.pushMsg := by
  have hnew : Clear { e.decoder with inProgress := {} } e.decoder.taken := by
    have howned := hk.owned.2
    unfold Clear Decoder.taken
    cases hstorage : e.decoder.inProgress.storage with
    | vsm => trivial
    | lmsg content =>
      rw [hstorage] at howned
      exact ⟨howned, nofun⟩
    | zclmsg hint p =>
      rw [hstorage] at howned
      exact howned
  constructor
  · exact ⟨hk.owned.1, trivial⟩
  · intro h hmem
    rcases mem_append.mp hmem with hmem | hmem
    · exact (hk.clear h hmem).mono (Nat.le_refl _) nofun
    · cases mem_singleton.mp hmem
      exact hnew
  · simp [Engine.pushMsg, hk.length]
  · intro k h hget
    change (e.held ++ [some e.decoder.taken])[k]? = some (some h) at hget
    change (e.seen ++ [(e.decoder.taken.body e.decoder.memory, e.decoder.inProgress.flags)])[k]? = _
    by_cases hlt : k < e.held.length
    · rw [getElem?_append_left hlt] at hget
      rw [getElem?_append_left (hk.length ▸ hlt)]
      exact hk.bodies k h hget
    rw [getElem?_append_right (Nat.le_of_not_lt hlt)] at hget
    rw [getElem?_append_right (hk.length ▸ Nat.le_of_not_lt hlt), ← hk.length]
    cases hindex : k - e.held.length with
    | zero =>
      rw [hindex] at hget
      cases hget
      rfl
    | succ n =>
      rw [hindex] at hget
      cases hget
  · intro b
    have hbefore := hk.refs b
    have hrefers := taken_refers e.decoder b
    change e.decoder.refs b = (if e.decoder.buf = b then 1 else 0) + 0 +
      holds (e.held ++ [some e.decoder.taken]) b
    have hcount : holds (e.held ++ [some e.decoder.taken]) b =
        holds e.held b + refers e.decoder.inProgress.storage b := by
      unfold holds
      rw [countP_append, ← hrefers]
      simp [countP_cons]
    omega

theorem Kept.write {m : Memory} (hk : Kept e)
    (hbody : ∀ h, some h ∈ e.held → h.body m = h.body e.decoder.memory) (bufsize : Nat) :
    Kept { e with decoder := { e.decoder with memory := m, bufsize } } := by
  refine { hk with bodies := ?_ }
  intro k h hget
  have hseen := hk.bodies k h hget
  rw [← hbody h (mem_of_getElem? hget)] at hseen
  exact hseen

theorem holds_fresh (h : ∀ m, some m ∈ held → Clear d m) : holds held d.fresh = 0 := by
  refine countP_eq_zero.mpr ?_
  intro m hm
  cases m with
  | none => simp
  | some m =>
    have hclear := h m hm
    unfold Clear at hclear
    unfold Held.refers
    cases hcontent : m.content with
    | inner | block => simp [hcontent]
    | shared hint p =>
      rw [hcontent] at hclear
      have hne : hint ≠ d.fresh := Nat.ne_of_lt hclear.2
      simp [hcontent, hne]

theorem Kept.allocate (hk : Kept e) :
    Kept { e with decoder := e.decoder.allocate } ∧ holds e.held e.decoder.allocate.buf = 0 := by
  have hbuf := hk.refs e.decoder.buf
  rw [if_pos rfl] at hbuf
  unfold Decoder.allocate
  split
  · refine ⟨?_, by dsimp only; omega⟩
    refine { hk with refs := ?_ }
    intro b
    have hbefore := hk.refs b
    change update e.decoder.refs e.decoder.buf 1 b = _
    rcases eq_or_ne b e.decoder.buf with rfl | hb
    · rw [update_self, ← hbefore]
      omega
    · rw [update_of_ne hb]
      exact hbefore
  · have hholds : holds e.held e.decoder.fresh = 0 := holds_fresh hk.clear
    have hrefers : refers e.decoder.inProgress.storage e.decoder.fresh = 0 := by
      have howned := hk.owned.2
      cases hstorage : e.decoder.inProgress.storage with
      | vsm | lmsg => rfl
      | zclmsg hint p =>
        rw [hstorage] at howned
        exact if_neg (Nat.ne_of_lt howned.2)
    refine ⟨?_, hholds⟩
    refine { hk with owned := ?_, clear := ?_, refs := ?_ }
    · refine ⟨Nat.lt_succ_self _, ?_⟩
      have howned := hk.owned.2
      cases hstorage : e.decoder.inProgress.storage with
      | vsm => trivial
      | lmsg content =>
        rw [hstorage] at howned
        exact Nat.lt_succ_of_lt howned
      | zclmsg hint p =>
        rw [hstorage] at howned
        exact ⟨howned.1, Nat.lt_succ_of_lt howned.2⟩
    · exact fun h hmem => (hk.clear h hmem).mono (Nat.le_succ _) fun _ _ => id
    · intro b
      have hbefore := hk.refs b
      change update (update e.decoder.refs e.decoder.buf (e.decoder.refs e.decoder.buf - 1))
        e.decoder.fresh 1 b = (if e.decoder.fresh = b then 1 else 0) + _ + _
      rcases eq_or_ne b e.decoder.fresh with rfl | hb
      · rw [update_self, if_pos rfl]
        dsimp only
        omega
      · rw [update_of_ne hb, if_neg (Ne.symm hb)]
        rcases eq_or_ne b e.decoder.buf with rfl | hold
        · rw [update_self]
          dsimp only
          omega
        · rw [update_of_ne hold]
          rw [if_neg (Ne.symm hold)] at hbefore
          exact hbefore

/-- A read into such a buffer leaves the bodies of open messages as they are. -/
theorem body_fill_buffer {b : Nat} {memory : Memory} (hmem : some h ∈ held) (hclear : Clear d h)
    (hnone : holds held b = 0) (bytes : List UInt8) :
    h.body (memory.fill (.buffer b) 0 bytes) = h.body memory := by
  have hrefers := countP_eq_zero.mp hnone (some h) hmem
  unfold Clear at hclear
  unfold Held.refers at hrefers
  unfold Held.body
  cases hcontent : h.content with
  | inner inner => rfl
  | block id =>
    have hne : Block.content id ≠ .buffer b := nofun
    exact load_fill_of_ne memory (p := ⟨.content id, 0⟩) hne bytes
  | shared hint p =>
    rw [hcontent] at hclear
    simp only [hcontent, any_some, decide_eq_true_eq] at hrefers
    refine load_fill_of_ne memory ?_ bytes
    rw [hclear.1]
    intro heq
    exact hrefers (Block.buffer.inj heq)

end Held

section Reading

/-- The decoder between two reads. -/
structure Resting (d : Decoder) (r : V2Decoder.Decoder) : Prop where
  sim : Sim d r
  idle : d.next ≠ .messageReady → d.inProgress.storage = .vsm
  body : ∀ hint p, d.next = .messageReady → d.inProgress.storage ≠ .zclmsg hint p
  live : Live r

theorem Ready.resting (h : Ready d r o []) (live : Live r) : Resting d r := by
  refine ⟨h.sim, h.idle, ?_, live⟩
  intro hint p hnext hstorage
  have hfits := (h.spot.zclmsg hint p hnext hstorage).2
  have hlive : 0 < d.toRead := h.sim.toRead ▸ live
  exact absurd hlive (Nat.not_lt.mpr hfits)

theorem Resting.allocate (h : Resting d r) : Resting d.allocate r := by
  unfold Decoder.allocate
  split <;> exact { h with sim := { h.sim with } }

theorem allocate_bufsize (d : Decoder) : d.allocate.bufsize = d.maxSize ∧
    d.allocate.toRead = d.toRead := by
  unfold Decoder.allocate
  split <;> exact ⟨rfl, rfl⟩

theorem Resting.received (h : Resting d r) (bytes : List UInt8) :
    Ready { d with
      memory := d.memory.fill (.buffer d.buf) 0 bytes
      bufsize := bytes.length } r 0 bytes := by
  have hblock : (base d).block ≠ .buffer d.buf := by
    have hnot := h.sim.not_buffer h.body d.buf
    rwa [h.sim.readPos, add_block] at hnot
  constructor
  · exact {
      h.sim with
      got := (load_fill_of_ne d.memory hblock bytes).trans h.sim.got }
  · refine ⟨Blocks.load_fill_self .., Nat.zero_add _, ?_⟩
    intro hint p hnext hstorage
    exact absurd hstorage (h.body hint p hnext)
  · exact h.idle

end Reading

section Events

/-- What a receiver sees of messages. -/
def payload (msgs : List Msg) : List (List UInt8 × Flags) := msgs.map fun m => (m.data, m.flags)

/-- The engine has gone on as the one on lists. -/
structure Follows (e e' : Engine) (r : V2Decoder.Decoder) (bytes : List UInt8)
    (result : List Msg × Status) : Prop where
  kept : Kept e'
  read : e'.read = e.read
  seen : e'.seen = e.seen ++ payload result.1
  failed : e'.failed = (point r bytes).map (e.processed + ·)
  status : match result.2 with
    | .decoding r' =>
      Resting e'.decoder r' ∧ e'.insize = 0 ∧ e'.processed = e.processed + bytes.length
    | .protocolError => True
    | .assertFailed => False

/-- What one call of `decode` on lists says about the point of failure. -/
def Decoded (r : V2Decoder.Decoder) (bytes : List UInt8) (rc : Rc) (r' : V2Decoder.Decoder)
    (rest : List UInt8) (used : Nat) : Prop :=
  match rc with
  | .zero => rest = [] ∧ Live r' ∧ point r bytes = none
  | .emsgsize => point r bytes = some used
  | .message => Live r' ∧ point r bytes = (point r' rest).map (used + ·)

theorem follows_of_decode {used : Nat} {inPlace : Bool} {rc : Rc} {r' : V2Decoder.Decoder}
    (hk : Kept e) (hfailed : e.failed = none) (hne : bytes ≠ []) (hinsize : e.insize = bytes.length)
    (hlists : decode inPlace r bytes = some (rc, r', rest))
    (hmemory : e.decoder.decode e.inpos e.insize = some (rc, d', used))
    (hused : used + rest.length = bytes.length) (houtcome : Outcome rc d' r' o rest)
    (hframe : Frame e.decoder d') (hdecoded : Decoded r bytes rc r' rest used)
    (hnext : rc = .message → ∀ e₁ : Engine, Kept e₁ → e₁.failed = none →
      e₁.insize = rest.length → e₁.inpos = e.inpos.add used →
      e₁.decoder = { d' with inProgress := {} } →
      ∃ e', Engine.inEventLoop fuel e₁ = some e' ∧
        Follows e₁ e' r' rest (inEventLoop inPlace fuel r' rest)) :
    ∃ e', Engine.inEventLoop (fuel + 1) e = some e' ∧
      Follows e e' r bytes (inEventLoop inPlace (fuel + 1) r bytes) := by
  have hpos : 0 < bytes.length := length_pos_iff.mpr hne
  have hcond : ¬ bytes.isEmpty = true := by simpa using hne
  have hkept := hk.frame hframe
  unfold Engine.inEventLoop
  rw [if_neg (by omega), hmemory]
  dsimp only
  rw [if_neg (by omega)]
  cases rc with
  | zero =>
    obtain ⟨rfl, hlive, hpoint⟩ := hdecoded
    have hresult : inEventLoop inPlace (fuel + 1) r bytes = ([], .decoding r') := by
      rw [inEventLoop, if_neg hcond, hlists]
    rw [hresult]
    simp only [length_nil, Nat.add_zero] at hused
    refine ⟨_, rfl, { hkept with }, rfl, (append_nil _).symm, ?_, ?_⟩
    · rw [hpoint]
      exact hfailed
    · exact ⟨Ready.resting houtcome hlive, by dsimp only; omega, by dsimp only; omega⟩
  | emsgsize =>
    have hresult : inEventLoop inPlace (fuel + 1) r bytes = ([], .protocolError) := by
      rw [inEventLoop, if_neg hcond, hlists]
    have hpoint : point r bytes = some used := hdecoded
    rw [hresult]
    refine ⟨_, rfl, { hkept with }, rfl, (append_nil _).symm, ?_, trivial⟩
    rw [hpoint]
    rfl
  | message =>
    obtain ⟨hlive, hpoint⟩ := hdecoded
    obtain ⟨hcomplete, hready⟩ := houtcome
    have hresult : inEventLoop inPlace (fuel + 1) r bytes =
        (r'.inProgress :: (inEventLoop inPlace fuel r' rest).1,
          (inEventLoop inPlace fuel r' rest).2) := by
      rw [inEventLoop, if_neg hcond, hlists]
    rw [hresult]
    let e₁ : Engine := { e with
      decoder := d'
      inpos := e.inpos.add used
      insize := e.insize - used
      processed := e.processed + used }
    have hpushed : Kept e₁.pushMsg := Kept.pushMsg { hkept with }
    have hleft : e.insize - used = rest.length := by omega
    obtain ⟨e', hloop, hfollows⟩ := hnext rfl e₁.pushMsg hpushed hfailed hleft rfl rfl
    refine ⟨e', hloop, hfollows.kept, hfollows.read, ?_, ?_, ?_⟩
    · have hfirst : (d'.taken.body d'.memory, d'.inProgress.flags) =
          (r'.inProgress.data, r'.inProgress.flags) := by
        rw [hcomplete.body, hcomplete.flags]
      have hseen : e₁.pushMsg.seen = e.seen ++ [(r'.inProgress.data, r'.inProgress.flags)] :=
        congrArg (fun m => e.seen ++ [m]) hfirst
      rw [hfollows.seen, hseen, append_assoc]
      rfl
    · rw [hfollows.failed, hpoint, map_add_map_add]
      rfl
    · have hstatus := hfollows.status
      generalize inEventLoop inPlace fuel r' rest = result at hstatus ⊢
      obtain ⟨msgs, status⟩ := result
      cases status with
      | decoding r'' =>
        obtain ⟨hrest, hzero, hprocessed⟩ := hstatus
        have hsum : e'.processed = e.processed + used + rest.length := hprocessed
        exact ⟨hrest, hzero, by omega⟩
      | protocolError => trivial
      | assertFailed => exact hstatus

theorem inEventLoop_follows (hk : Kept e) (hfailed : e.failed = none) (h : Ready e.decoder r o rest)
    (live : Live r) (hbody : ∀ hint p, e.decoder.next = .messageReady →
      e.decoder.inProgress.storage ≠ .zclmsg hint p) (hinpos : e.inpos = ⟨.buffer e.decoder.buf, o⟩)
    (hinsize : e.insize = rest.length) (hfuel : rest.length < fuel) :
    ∃ e', Engine.inEventLoop fuel e = some e' ∧
      Follows e e' r rest (inEventLoop false fuel r rest) := by
  induction fuel generalizing e r o rest with
  | zero => omega
  | succ fuel ih =>
    by_cases hempty : rest = []
    · subst hempty
      have hzero : e.insize = 0 := hinsize
      have hstop : Engine.inEventLoop (fuel + 1) e = some e := by
        rw [Engine.inEventLoop, if_pos hzero]
      refine ⟨e, hstop, hk, rfl, (append_nil _).symm, hfailed, ?_⟩
      exact ⟨h.resting live, hinsize, rfl⟩
    · have hpos : e.decoder.readPos ≠ ⟨.buffer e.decoder.buf, o⟩ := by
        intro heq
        exact h.sim.not_buffer hbody e.decoder.buf (congrArg Ptr.block heq)
      obtain ⟨d', used, hdecode, hused, houtcome, hframe⟩ := decode_spec h hk.owned hpos
      have hspec := V2Decoder.decodeLoop_spec (rest.length + 1) r rest live (Nat.lt_succ_self _)
      have hlists : decode false r rest = some (decodeLoop (rest.length + 1) r rest) := rfl
      generalize decodeLoop (rest.length + 1) r rest = result at hdecode hused houtcome hspec hlists
      obtain ⟨rc, r', rest'⟩ := result
      rw [← hinpos, ← hinsize] at hdecode
      refine follows_of_decode hk hfailed hempty hinsize hlists hdecode hused houtcome hframe ?_ ?_
      · cases rc with
        | zero => exact ⟨hspec.1, hspec.2.1, point_of_isSome hspec.2.2.isSome_eq⟩
        | emsgsize =>
          obtain ⟨-, bytes, rfl, hfails⟩ := hspec
          obtain rfl : used = bytes.length := Nat.add_right_cancel (hused.trans length_append)
          exact point_of_failsLast hfails rest'
        | message =>
          obtain ⟨hlive, -, bytes, rfl, -, hrun⟩ := hspec
          obtain rfl : used = bytes.length := Nat.add_right_cancel (hused.trans length_append)
          exact ⟨hlive, point_of_similar hrun rest'⟩
      · rintro rfl e₁ hk₁ hfailed₁ hinsize₁ hinpos₁ hdecoder₁
        obtain ⟨hlive, -, bytes, rfl, hne, -⟩ := hspec
        have hless : 0 < bytes.length := length_pos_iff.mpr hne
        rw [length_append] at hfuel
        refine ih hk₁ hfailed₁ (hdecoder₁ ▸ houtcome.2) hlive ?_ ?_ hinsize₁ (by omega)
        · intro hint p hnext
          rw [hdecoder₁]
          exact nofun
        · rw [hinpos₁, hinpos, hdecoder₁]
          change (⟨.buffer e.decoder.buf, o + used⟩ : Ptr) = ⟨.buffer d'.buf, o + used⟩
          rw [hframe.buf]

/-- Nothing but the body is read into the message, so that the address does not matter. -/
theorem settle_body (hnext : d.next = .messageReady) (p q : Ptr) :
    Decoder.settle p 3 d = Decoder.settle q 3 d := by
  unfold Decoder.settle
  split
  · simp [Decoder.act, hnext, Decoder.messageReady]
  · rfl

theorem inPlace_follows (hk : Kept e) (hfailed : e.failed = none) (h : Resting e.decoder r)
    (hnext : e.decoder.next = .messageReady) (hne : bytes ≠ [])
    (hle : bytes.length ≤ e.decoder.toRead)
    (hstored : load e.decoder.memory e.decoder.readPos bytes.length = bytes)
    (hinpos : e.inpos = e.decoder.readPos) (hinsize : e.insize = bytes.length) :
    ∃ e', Engine.inEventLoop (fuel + 2) e = some e' ∧
      Follows e e' r bytes (inEventLoop true (fuel + 2) r bytes) := by
  have hsim := h.sim.advance hle h.sim.got hstored
  have hready : Ready { e.decoder with
      readPos := e.decoder.readPos.add bytes.length
      toRead := e.decoder.toRead - bytes.length } (r.store bytes) e.decoder.bufsize [] :=
    ⟨hsim, ⟨rfl, rfl, fun hint p hmessage hstorage => absurd hstorage (h.body hint p hmessage)⟩,
      h.idle⟩
  obtain ⟨d', hsettle, houtcome, hframe⟩ := settle_spec 3 hready hk.owned
  have hle' : bytes.length ≤ r.toRead := h.sim.toRead ▸ hle
  have hturn := run_turn r [] h.live hle' 0
  rw [append_nil] at hturn
  have hfails := failsLast_of_turn 0 h.live hne hle'
  have hlive := settle_live 0 (r.store bytes)
  have hlists : decode true r bytes =
      some ((settle 0 3 (r.store bytes)).1, (settle 0 3 (r.store bytes)).2, []) := by
    simp [decode, hle']
  have hdecode : e.decoder.decode e.inpos e.insize =
      some ((settle 0 3 (r.store bytes)).1, d', bytes.length) := by
    unfold Decoder.decode
    rw [if_pos hinpos, hinsize, if_pos hle]
    dsimp only
    rw [settle_body (d := { e.decoder with
      readPos := e.decoder.readPos.add bytes.length
      toRead := e.decoder.toRead - bytes.length }) hnext _
      ⟨.buffer e.decoder.buf, e.decoder.bufsize⟩, hsettle]
    rfl
  have hmoved : Frame e.decoder { e.decoder with
      readPos := e.decoder.readPos.add bytes.length
      toRead := e.decoder.toRead - bytes.length } := .of_fields rfl rfl
  generalize settle 0 3 (r.store bytes) = result at hdecode hlists houtcome hturn hfails hlive
  obtain ⟨rc, r'⟩ := result
  refine follows_of_decode hk hfailed hne hinsize hlists hdecode rfl houtcome
    (hmoved.trans hframe) ?_ ?_
  · cases rc with
    | zero => exact ⟨rfl, hlive (by simp), point_of_isSome hturn.isSome_eq⟩
    | emsgsize =>
      have hpoint := point_of_failsLast (hfails rfl) []
      rw [append_nil] at hpoint
      exact hpoint
    | message => exact ⟨hlive (by simp), point_of_isSome hturn.isSome_eq⟩
  · rintro rfl e₁ hk₁ hfailed₁ hinsize₁ - hdecoder₁
    have hzero : e₁.insize = 0 := hinsize₁
    have hstop : Engine.inEventLoop (fuel + 1) e₁ = some e₁ := by
      rw [Engine.inEventLoop, if_pos hzero]
    refine ⟨e₁, hstop, hk₁, rfl, (append_nil _).symm, hfailed₁, ?_⟩
    exact ⟨hdecoder₁ ▸ houtcome.2.resting (hlive (by simp)), hzero, rfl⟩

/-- One read of `in_event` does what it does on lists, for a receive buffer that is larger than
the fields of a header. -/
theorem inEvent_follows (hk : Kept e) (hfailed : e.failed = none) (h : Resting e.decoder r)
    (hlarge : 4 < r.maxSize) (hne : bytes ≠ []) (hle : bytes.length ≤ e.offered) :
    bytes.length ≤ r.offered ∧ ∃ e', e.inEvent bytes = some e' ∧
      Follows { e with read := e.read ++ bytes } e' r bytes (inEvent r bytes) := by
  obtain ⟨hkept, hnone⟩ := hk.allocate
  have hrest := h.allocate
  obtain ⟨hbufsize, htoRead⟩ := allocate_bufsize e.decoder
  have hbuffer : e.decoder.getBuffer = if _ then _ else _ := rfl
  generalize e.decoder.allocate = d at *
  have hsize : d.bufsize = r.maxSize := hbufsize.trans h.sim.maxSize
  have hread : d.toRead = r.toRead := htoRead.trans h.sim.toRead
  obtain ⟨fuel, hfuel⟩ : ∃ fuel, bytes.length + 1 = fuel + 2 := by
    have hpos : 0 < bytes.length := length_pos_iff.mpr hne
    exact ⟨bytes.length - 1, by omega⟩
  by_cases hplace : r.maxSize ≤ r.toRead
  · have hget : e.decoder.getBuffer = (d, d.readPos, d.toRead) := by
      rw [hbuffer, if_pos (by omega)]
    have hin : r.inPlace = true := decide_eq_true hplace
    rw [Engine.offered, hget] at hle
    dsimp only at hle
    have hnext : d.next = .messageReady := by
      have hawaits := hrest.sim.awaits
      unfold need at hawaits
      cases hn : d.next with
      | messageReady => rfl
      | flagsReady | oneByteSizeReady | keySizeReady | fourByteSizeReady =>
        simp only [hn] at hawaits; omega
    refine ⟨?_, ?_⟩
    · unfold Decoder.offered
      rw [if_pos hin]
      omega
    unfold Engine.inEvent
    rw [hget]
    dsimp only
    rw [if_pos hle, inEvent, hin, hfuel]
    have hwritable := hrest.sim.writable hrest.body
    have hwrite := hkept.write (m := d.memory.fill d.readPos.block d.readPos.offset bytes)
      (fun m hm => (hkept.clear m hm).body_fill hwritable bytes) bytes.length
    have hgot := hrest.sim.got_fill bytes
    let e₁ : Engine := { e with
      decoder := Decoder.resizeBuffer { d with
        memory := d.memory.fill d.readPos.block d.readPos.offset bytes } bytes.length
      inpos := d.readPos
      insize := bytes.length
      read := e.read ++ bytes }
    have hrest₁ : Resting e₁.decoder r :=
      { hrest with sim := { hrest.sim with got := hgot } }
    obtain ⟨e', hloop, hfollows⟩ := inPlace_follows (e := e₁) { hwrite with } hfailed hrest₁
      hnext hne hle (Blocks.load_fill_self ..) rfl rfl
    exact ⟨e', hloop, { hfollows with }⟩
  · have hget : e.decoder.getBuffer = (d, ⟨.buffer d.buf, 0⟩, d.bufsize) := by
      rw [hbuffer, if_neg (by omega)]
    have hin : r.inPlace = false := decide_eq_false hplace
    rw [Engine.offered, hget] at hle
    dsimp only at hle
    refine ⟨?_, ?_⟩
    · unfold Decoder.offered
      rw [hin]
      simp only [Bool.false_eq_true, if_false]
      omega
    · unfold Engine.inEvent
      rw [hget]
      dsimp only
      rw [if_pos hle, inEvent, hin]
      have hwrite := hkept.write (m := d.memory.fill (.buffer d.buf) 0 bytes)
        (fun m hm => body_fill_buffer hm (hkept.clear m hm) hnone bytes) bytes.length
      let e₁ : Engine := { e with
        decoder := Decoder.resizeBuffer { d with
          memory := d.memory.fill (.buffer d.buf) 0 bytes } bytes.length
        inpos := ⟨.buffer d.buf, 0⟩
        insize := bytes.length
        read := e.read ++ bytes }
      obtain ⟨e', hloop, hfollows⟩ := inEventLoop_follows (e := e₁) { hwrite with } hfailed
        (hrest.received bytes) hrest.live hrest.body rfl rfl (Nat.lt_succ_self _)
      exact ⟨e', hloop, { hfollows with }⟩

end Events

section Closing

theorem holds_set (hget : held[k]? = some (some h)) (b : Nat) :
    holds held b = holds (held.set k none) b + if h.refers b then 1 else 0 := by
  obtain ⟨hlt, hval⟩ := List.getElem?_eq_some_iff.mp hget
  have hcount := List.countP_set (p := fun m => m.any (Held.refers b)) (a := none) hlt
  rw [hval] at hcount
  unfold holds
  rw [hcount]
  simp only [any_some, any_none, Bool.false_eq_true, if_false, Nat.add_zero]
  by_cases hrefers : h.refers b = true
  · have hpos : 0 < held.countP fun m => m.any (Held.refers b) := by
      refine countP_pos_iff.mpr ⟨some h, mem_of_getElem? hget, ?_⟩
      simp [hrefers]
    rw [if_pos hrefers]
    omega
  · rw [if_neg hrefers]
    rfl

theorem Kept.close (hk : Kept e) (hget : e.held[k]? = some (some h)) : Kept (e.close k h) := by
  have hholds := holds_set hget
  have hsub : ∀ m, some m ∈ e.held.set k none → some m ∈ e.held := by
    intro m hm
    rcases mem_or_eq_of_mem_set hm with hm | heq
    · exact hm
    · cases heq
  have hbodies : ∀ (j : Nat) (m : Held), (e.held.set k none)[j]? = some (some m) →
      e.seen[j]? = some (m.body e.decoder.memory, m.flags) := by
    intro j m hj
    rw [getElem?_set] at hj
    split at hj
    · split at hj <;> cases hj
    · exact hk.bodies j m hj
  have hclear : ∀ m, some m ∈ e.held.set k none → Clear e.decoder m :=
    fun m hm => hk.clear m (hsub m hm)
  have hlength : (e.held.set k none).length = e.seen.length := by simp [hk.length]
  -- only a message in a buffer is counted
  have hplain : (∀ b, h.refers b = false) → Kept { e with held := e.held.set k none } := by
    intro hrefers
    refine ⟨hk.owned, hclear, hlength, hbodies, ?_⟩
    intro b
    have hcount := hholds b
    simp only [hrefers b, Bool.false_eq_true, if_false, Nat.add_zero] at hcount
    exact hcount ▸ hk.refs b
  unfold Engine.close
  cases hcontent : h.content with
  | inner | block => exact hplain fun b => by simp [Held.refers, hcontent]
  | shared hint p =>
    refine ⟨hk.owned, hclear, hlength, hbodies, ?_⟩
    intro b
    have hbefore := hk.refs b
    have hcount := hholds b
    simp only [Held.refers, hcontent, decide_eq_true_eq] at hcount
    change update e.decoder.refs hint (e.decoder.refs hint - 1) b =
      (if e.decoder.buf = b then 1 else 0) + refers e.decoder.inProgress.storage b +
        holds (e.held.set k none) b
    rcases eq_or_ne b hint with rfl | hb
    · rw [if_pos rfl] at hcount
      rw [update_self]
      omega
    · rw [if_neg (Ne.symm hb)] at hcount
      rw [update_of_ne hb]
      omega

theorem Resting.close (h : Resting e.decoder r) (k : Nat) (m : Held) :
    Resting (e.close k m).decoder r := by
  unfold Engine.close
  cases m.content with
  | inner | block => exact h
  | shared hint p => exact { h with sim := { h.sim with } }

end Closing

section Results
variable {maxmsgsize : Int}

/-- The decoder on lists that the engine starts with. -/
def reference (maxmsgsize : Int) : V2Decoder.Decoder := .new inBatchSize maxmsgsize

/-- The engine has decoded the bytes read so far. -/
structure Inv (maxmsgsize : Int) (e : Engine) : Prop where
  kept : Kept e
  seen : e.seen = payload (run (reference maxmsgsize) e.read).1
  failed : e.failed = point (reference maxmsgsize) e.read
  alive : e.failed = none → e.insize = 0 ∧ e.processed = e.read.length ∧
    ∃ r, Resting e.decoder r ∧
      (run (reference maxmsgsize) e.read).2.map Decoder.erase = some r.erase

theorem Inv.of_initial (h : Initial maxmsgsize e) : Inv maxmsgsize e := by
  obtain ⟨⟨memory, hdecoder⟩, hinsize, hheld, hread, hseen, hprocessed, hfailed⟩ := h
  constructor
  · constructor
    · rw [hdecoder]
      exact ⟨Nat.zero_lt_one, trivial⟩
    · simp [hheld]
    · simp [hheld, hseen]
    · simp [hheld]
    · intro b
      rw [hdecoder, hheld]
      change update (fun _ => 0) 0 1 b = (if 0 = b then 1 else 0) + 0 + 0
      rcases eq_or_ne b 0 with rfl | hb
      · rfl
      · rw [update_of_ne hb, if_neg (Ne.symm hb)]
  · rw [hseen, hread]
    rfl
  · rw [hfailed, hread]
    rfl
  · intro _
    refine ⟨hinsize, by rw [hprocessed, hread]; rfl, reference maxmsgsize, ?_, by rw [hread]; rfl⟩
    rw [hdecoder]
    exact ⟨⟨rfl, rfl, rfl, rfl, rfl, rfl, rfl, rfl, nofun⟩, fun _ => rfl, nofun, new_live _ _⟩

section
variable (hs : Inv maxmsgsize e)
include hs

theorem Inv.read (hfailed : e.failed = none) (hne : bytes ≠ []) (hle : bytes.length ≤ e.offered) :
    ∃ t, e.inEvent bytes = some t ∧ Inv maxmsgsize t := by
  obtain ⟨-, hprocessed, r, hrest, hrun⟩ := hs.alive hfailed
  obtain ⟨r₁, hr₁, hsame⟩ := map_eq_some_iff.mp hrun
  have hlarge : 4 < r.maxSize := by
    have hsize : r₁.erase.maxSize = r.erase.maxSize := by rw [hsame]
    change r₁.maxSize = r.maxSize at hsize
    rw [← hsize, run_maxSize hr₁]
    change 4 < inBatchSize
    decide
  obtain ⟨hle', t, ht, hfollows⟩ := inEvent_follows hs.kept hfailed hrest hlarge hne hle
  have hreads := inEvent_spec r bytes hrest.live (length_pos_iff.mpr hne) hle'
  have hbefore : Similar (run (reference maxmsgsize) e.read) (_, some r) := ⟨rfl, hrun⟩
  have happend := hbefore.append bytes
  have hread : t.read = e.read ++ bytes := hfollows.read
  have hpoint : point (reference maxmsgsize) t.read = (point r bytes).map (e.processed + ·) := by
    rw [hread, hprocessed]
    exact point_of_similar hbefore bytes
  have hstatus := hfollows.status
  have hseen := hfollows.seen
  -- the outcome on lists is the one of `run`
  generalize inEvent r bytes = result at hreads hstatus hseen
  obtain ⟨msgs, status⟩ := result
  have hmsgs : payload msgs = payload (run r bytes).1 := by
    cases status with
    | decoding r' => exact hreads.2.1.symm
    | protocolError => exact hreads.1.symm
    | assertFailed => exact hreads.elim
  refine ⟨t, ht, hfollows.kept, ?_, ?_, ?_⟩
  · rw [hseen, hread, hmsgs]
    rw [hs.seen]
    unfold payload
    rw [← map_append]
    exact happend.1.symm
  · rw [hpoint]
    exact hfollows.failed
  · intro hnone
    have hno : point r bytes = none := by
      have hfailed' := hfollows.failed
      rw [hnone] at hfailed'
      exact map_eq_none_iff.mp hfailed'.symm
    cases status with
    | decoding r' =>
      obtain ⟨hrest', hzero, hsum⟩ := hstatus
      refine ⟨hzero, ?_, r', hrest', ?_⟩
      · rw [hsum, hread, length_append, ← hprocessed]
      · rw [hread]
        exact happend.2.trans hreads.2.2
    | protocolError =>
      have hsome := (run_none_iff r bytes).mp (map_eq_none_iff.mp hreads.2)
      rw [hno] at hsome
      cases hsome
    | assertFailed => exact hreads.elim

theorem Inv.step {t : Engine} {i : Input} (h : step e i = some t) : Inv maxmsgsize t := by
  cases i with
  | read bytes =>
    obtain ⟨⟨hfailed, -, hne⟩, h⟩ := ite_none_right_eq_some.mp h
    have hle : bytes.length ≤ e.offered := by
      by_contra hlt
      have hnone : e.inEvent bytes = none := if_neg hlt
      cases hnone.symm.trans h
    obtain ⟨t', ht', hinv⟩ := hs.read hfailed hne hle
    cases h.symm.trans ht'
    exact hinv
  | close k =>
    rcases hget : e.held[k]? with _ | _ | m
    · simp [DecoderMemory.step, hget] at h
    · simp [DecoderMemory.step, hget] at h
    simp only [DecoderMemory.step, hget] at h
    cases h
    refine ⟨hs.kept.close hget, hs.seen, hs.failed, ?_⟩
    intro hfailed
    obtain ⟨hinsize, hprocessed, r, hrest, hrun⟩ := hs.alive hfailed
    exact ⟨hinsize, hprocessed, r, hrest.close k m, hrun⟩

theorem Inv.sound : Sound e := by
  constructor
  · intro bytes hfailed hne hle
    obtain ⟨t, ht, -⟩ := hs.read hfailed hne hle
    have hinsize := (hs.alive hfailed).1
    exact ⟨t, by simp [DecoderMemory.step, hfailed, hinsize, hne, ht]⟩
  · exact hs.kept.bodies

theorem Inv.cuts (hcut : Cuts e bytes) :
    e.seen = payload (run (reference maxmsgsize) bytes).1 ∧
      e.failed = point (reference maxmsgsize) bytes := by
  obtain ⟨⟨later, rfl⟩, hall⟩ := hcut
  cases hfailed : e.failed with
  | none =>
    rw [← hall hfailed, ← hs.failed]
    exact ⟨hs.seen, hfailed.symm⟩
  | some n =>
    have hsome : (point (reference maxmsgsize) e.read).isSome := by
      rw [← hs.failed, hfailed]
      rfl
    have hend := (run_none_iff _ _).mpr hsome
    rw [run_append, point_append, hs.seen, ← hfailed, hs.failed]
    generalize run (reference maxmsgsize) e.read = x at hend ⊢
    obtain ⟨msgs, state⟩ := x
    cases hend
    exact ⟨rfl, rfl⟩

end

/-- However a string is cut into reads, the messages are those of the decoder that copies it byte
by byte, and decoding fails at the same point; and messages keep their bodies while they are
open. -/
theorem decoded_alike {maxmsgsize : Int} {e e' : Engine} {bytes : List UInt8}
    (h : Runs.Reach (Initial maxmsgsize) Runs.Always step e)
    (h' : Runs.Reach (Initial maxmsgsize) Runs.Always step e') (hcut : Cuts e bytes)
    (hcut' : Cuts e' bytes) :
    e.seen = e'.seen ∧ e.failed = e'.failed ∧ Sound e ∧
      e.seen = payload (V2Decoder.run (reference maxmsgsize) bytes).1 := by
  have hinv : Inv maxmsgsize e := h.invariant (fun _ => Inv.of_initial) fun _ _ _ hs _ => hs.step
  have hinv' : Inv maxmsgsize e' :=
    h'.invariant (fun _ => Inv.of_initial) fun _ _ _ hs _ => hs.step
  obtain ⟨hseen, hfailed⟩ := hinv.cuts hcut
  obtain ⟨hseen', hfailed'⟩ := hinv'.cuts hcut'
  exact ⟨hseen.trans hseen'.symm, hfailed.trans hfailed'.symm, hinv.sound, hseen⟩

/-- An engine with a limit of 50 bytes. -/
def start : Engine where
  decoder := .new (fun _ _ => 0) inBatchSize 50
  inpos := ⟨.tmpbuf, 0⟩
  insize := 0
  held := []
  read := []
  seen := []
  processed := 0
  failed := none

theorem start_initial : Initial 50 start := ⟨⟨_, rfl⟩, rfl, rfl, rfl, rfl, rfl, rfl⟩

/-- A body that can stay in the buffer, a small one, and a size above the limit. -/
def frames : List UInt8 :=
  [0, 0, 40] ++ List.replicate 40 7 ++ [1, 0, 2, 8, 9] ++ [0, 0, 60] ++ [5]

/-- In one read the first body stays in the buffer; in three reads it is copied. -/
theorem frames_decoded_alike : ∃ e e' : Engine,
    (e.seen = e'.seen ∧ e.failed = e'.failed ∧ Sound e ∧
      e.seen = payload (V2Decoder.run (reference 50) frames).1) ∧
    e.failed = some 51 ∧ e.held.head? = some (some ⟨.shared 0 ⟨.buffer 0, 3⟩, 40, {}⟩) ∧
    e'.held.head? = some (some ⟨.block 1, 40, {}⟩) := by
  obtain ⟨e, hreach, hread, hfailed, hheld⟩ := Runs.Reach.of_exec (s := start) (P := fun e =>
    e.read = frames ∧ e.failed = some 51 ∧
      e.held.head? = some (some ⟨.shared 0 ⟨.buffer 0, 3⟩, 40, {}⟩))
    Runs.Always step [.read frames] (by decide +kernel) start_initial
  obtain ⟨e', hreach', hread', hfailed', hheld'⟩ := Runs.Reach.of_exec (s := start)
    (P := fun e => e.read = frames.take 51 ∧ e.failed = some 51 ∧
      e.held.head? = some (some ⟨.block 1, 40, {}⟩))
    Runs.Always step [.read (frames.take 10), .read ((frames.drop 10).take 20),
      .read ((frames.drop 30).take 21)] (by decide +kernel) start_initial
  have hcut : Cuts e frames := ⟨hread ▸ prefix_refl _, fun _ => hread⟩
  have hcut' : Cuts e' frames :=
    ⟨hread' ▸ take_prefix 51 frames, fun hnone => by rw [hfailed'] at hnone; cases hnone⟩
  exact ⟨e, e', decoded_alike hreach hreach' hcut hcut', hfailed, hheld, hheld'⟩

end Results

end Uzmq.DecoderMemory
