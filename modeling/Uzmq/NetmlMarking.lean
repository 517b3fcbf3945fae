import Uzmq.NetmlSend

/-!
# The marks of transmitted segments

The four bits between the header length and the flags of a TCP header tell the
switches what a segment is. `tcp_write_netml` marks it as cold or hot and
`tcp_output`, after it has sent it, as a retransmission. The macros that do so work
on the field in network order, here on a little-endian host.

The send queues are those of the module before. A turn of `tcp_output` also
depends on the answer of `tcp_output_segment`, and what it sends is recorded.
-/

namespace Uzmq.NetmlMarking

open Option Function
open NetmlSend Runs

def lwipHtons (x : UInt16) : UInt16 := (x <<< 8) ||| (x >>> 8)

def lwipNtohs (x : UInt16) : UInt16 := lwipHtons x

inductive Mark where
  | cold
  | coldRe
  | hot
  | hotRe
deriving DecidableEq

def Mark.bits : Mark → UInt16
  | .cold => 0x04
  | .coldRe => 0x06
  | .hot => 0x07
  | .hotRe => 0x02

section Macros
variable (field : UInt16)

def tcphHdrlen : UInt16 := lwipNtohs field >>> 12

def tcphFlags : UInt16 := lwipNtohs field &&& 0x3f

def tcphOffsetFlags : UInt16 := (lwipNtohs field >>> 8) &&& 0xf

def tcphOffsetSetbit (offset : UInt16) : UInt16 := field ||| lwipHtons (offset <<< 8)

def tcphOffsetClear : UInt16 := field &&& 0xf0ff

end Macros

/-- The field as `tcp_create_segment` sets it for `tcp_write_netml`, which passes no
flags and no options on connections that are not bypassed. -/
def createdField : UInt16 := lwipHtons ((5 : UInt16) <<< 12)

def writtenField (isHot : Bool) : UInt16 :=
  tcphOffsetSetbit createdField (if isHot then Mark.hot else Mark.cold).bits

/-- What `tcp_output` does with the field of a segment it has sent. -/
def resendField (field : UInt16) : UInt16 :=
  if tcphOffsetFlags field = Mark.cold.bits then
    tcphOffsetSetbit (tcphOffsetClear field) Mark.coldRe.bits
  else if tcphOffsetFlags field = Mark.hot.bits then
    tcphOffsetSetbit (tcphOffsetClear field) Mark.hotRe.bits
  else field

/-- `sent` records the field at every transmission of a segment. -/
structure State where
  pcb : Pcb
  field : Nat → UInt16 := fun _ => 0
  isHot : Nat → Bool := fun _ => false
  sent : Nat → List UInt16 := fun _ => []

/-- A busy segment is not sent, `tcp_output` goes on as if it had been. -/
inductive Answer where
  | sent
  | busy
  | failed
deriving DecidableEq

inductive Input where
  | write (len maxLen : Nat) (isHot : Bool)
  | output (answer : Answer)
  | ack (ackno : Nat) (busy : Nat → Bool)
  | rtoPrepare (busy : Nat → Bool)

def State.create (s : State) (pcb : Pcb) (isHot : Bool) : State :=
  let created (seg : Nat) : Bool := s.pcb.fresh ≤ seg && seg < pcb.fresh
  { pcb := pcb
    field := fun seg => if created seg then writtenField isHot else s.field seg
    isHot := fun seg => if created seg then isHot else s.isHot seg
    sent := fun seg => if created seg then [] else s.sent seg }

def State.transmit (s : State) (seg : Nat) : State :=
  { s with sent := update s.sent seg (s.sent seg ++ [s.field seg]) }

/-- The rest of the turn, after `tcp_output_segment` has returned without an error. -/
def State.outputTurn (s : State) (seg : Nat) : State :=
  { s with
    pcb := tcpOutputTurn s.pcb
    field := if 0 < s.pcb.len seg then
        update s.field seg (resendField (s.field seg))
      else s.field }

/-- Only the driver keeps a segment busy, so one that was never sent is not. -/
def State.output (s : State) (seg : Nat) : Answer → Option State
  | .sent => some ((s.transmit seg).outputTurn seg)
  | .busy => if s.sent seg = [] then none else some (s.outputTurn seg)
  | .failed => some s

def step (s : State) : Input → Option State
  | .write len maxLen isHot =>
    (NetmlSend.step s.pcb (.write len maxLen)).map fun pcb => s.create pcb isHot
  | .output answer =>
    if s.pcb.crashed then none
    else s.pcb.unsent.bind fun seg => s.output seg answer
  | .ack ackno busy =>
    (NetmlSend.step s.pcb (.ack ackno busy)).map fun pcb => { s with pcb := pcb }
  | .rtoPrepare busy =>
    (NetmlSend.step s.pcb (.rtoPrepare busy)).map fun pcb => { s with pcb := pcb }

def Initial (s : State) : Prop := ∃ tcpSndBuf sndLbb, s = { pcb := Pcb.new tcpSndBuf sndLbb }

/-- The mark of the transmission with number `n`. -/
def dueMark (isHot : Bool) (n : Nat) : Mark :=
  match isHot, n with
  | false, 0 => .cold
  | false, _ + 1 => .coldRe
  | true, 0 => .hot
  | true, _ + 1 => .hotRe

/-- Every transmission carries its mark and, apart from that, the field the segment
was created with. -/
def Marked (s : State) : Prop :=
  ∀ seg < s.pcb.fresh, ∀ n field, (s.sent seg)[n]? = some field →
    tcphOffsetFlags field = (dueMark (s.isHot seg) n).bits ∧
      tcphHdrlen field = tcphHdrlen createdField ∧ tcphFlags field = tcphFlags createdField

/-- A hot segment is not sent again. -/
def HotOnce (s : State) : Input → Prop
  | .output .sent => ∀ seg ∈ s.pcb.unsent, s.isHot seg = true → s.sent seg = []
  | _ => True

instance (s : State) (i : Input) : Decidable (HotOnce s i) := by
  unfold HotOnce
  split <;> infer_instance

section Fields

/-- How often a segment has been sent, and what its field is then. -/
inductive Sending : Bool → UInt16 → List UInt16 → Prop where
  | unsent (isHot : Bool) : Sending isHot (writtenField isHot) []
  | cold (n : Nat) : Sending false (resendField (writtenField false))
      (writtenField false :: List.replicate n (resendField (writtenField false)))
  | hot (field : UInt16) : Sending true field [writtenField true]

variable {isHot : Bool} {field : UInt16} {sent : List UInt16}

theorem resendField_resent :
    resendField (resendField (writtenField false)) = resendField (writtenField false) := by
  decide

section
variable (h : Sending isHot field sent)
include h

theorem Sending.transmit (honce : isHot = true → sent = []) :
    Sending isHot (resendField field) (sent ++ [field]) := by
  cases h with
  | unsent isHot =>
    cases isHot with
    | false => exact .cold 0
    | true => exact .hot _
  | cold n =>
    rw [resendField_resent, List.cons_append, ← List.replicate_succ']
    exact .cold (n + 1)
  | hot field => cases honce rfl

theorem Sending.busy (hsent : sent ≠ []) : Sending isHot (resendField field) sent := by
  cases h with
  | unsent isHot => exact absurd rfl hsent
  | cold n =>
    exact .cold n
  | hot field => exact .hot _

theorem Sending.marked {n : Nat} {f : UInt16} (hf : sent[n]? = some f) :
    tcphOffsetFlags f = (dueMark isHot n).bits ∧ tcphHdrlen f = tcphHdrlen createdField ∧
      tcphFlags f = tcphFlags createdField := by
  cases h with
  | unsent isHot => cases hf
  | cold k =>
    cases n with
    | zero =>
      cases hf
      decide
    | succ n =>
      obtain rfl := List.eq_of_mem_replicate (List.mem_of_getElem? hf)
      simp only [dueMark]
      decide
  | hot field =>
    cases n with
    | zero =>
      cases hf
      decide
    | succ n => cases hf

end

end Fields

/-- The segments of two blocks have the same lengths. -/
structure SameSizes (pcb t : Pcb) : Prop where
  fresh : t.fresh = pcb.fresh
  len : t.len = pcb.len

variable {len maxLen head : Nat} {pcb : Pcb}

section Sizes
variable {pcb : Pcb}

theorem SameSizes.refl (pcb : Pcb) : SameSizes pcb pcb := ⟨rfl, rfl⟩

theorem SameSizes.trans {s t u : Pcb} (h : SameSizes s t) (h' : SameSizes t u) :
    SameSizes s u := ⟨h'.fresh.trans h.fresh, h'.len.trans h.len⟩

theorem sameSizes_putUnacked (seg : Nat) : SameSizes pcb (putUnacked pcb seg) := by
  unfold putUnacked
  dsimp only
  split
  · constructor <;> rfl
  · split
    · split <;> constructor <;> rfl
    · constructor <;> rfl

theorem sameSizes_outputTurn : SameSizes pcb (tcpOutputTurn pcb) := by
  unfold tcpOutputTurn
  split
  · exact .refl _
  rename_i seg _
  have hput : SameSizes pcb (if 0 < pcb.len seg then
      putUnacked { pcb with unsent := pcb.links.next seg } seg
    else { pcb with unsent := pcb.links.next seg }) := by
    split
    · exact SameSizes.trans (t := { pcb with unsent := pcb.links.next seg }) ⟨rfl, rfl⟩
        (sameSizes_putUnacked seg)
    · constructor <;> rfl
  dsimp only
  split
  · exact hput
  · exact hput.trans ⟨rfl, rfl⟩

theorem sameSizes_rexmitData (seg : Nat) (busy : Bool) :
    SameSizes pcb (tcpRexmitData pcb seg busy) := by
  unfold tcpRexmitData
  split
  · exact .refl _
  · dsimp only
    split
    · constructor <;> rfl
    · split <;> constructor <;> rfl

theorem sameSizes_rexmitPrevious (busy : Nat → Bool) (fuel : Nat) (prev : Option Nat) :
    SameSizes pcb (rexmitPrevious busy fuel pcb prev) := by
  induction fuel generalizing pcb prev with
  | zero => exact .refl _
  | succ fuel ih =>
    cases prev with
    | none => exact .refl _
    | some prev =>
      have hturn : SameSizes pcb (if pcb.hasresent prev then pcb
          else tcpRexmitData (removeFromUnack pcb prev) prev (busy prev)) := by
        split
        · exact .refl _
        · exact SameSizes.trans (t := removeFromUnack pcb prev) ⟨rfl, rfl⟩
            (sameSizes_rexmitData _ _)
      exact hturn.trans (ih _)

theorem sameSizes_receiveAck (ackno : Nat) (busy : Nat → Bool) :
    SameSizes pcb (receiveAck pcb ackno busy) := by
  have hunsent : SameSizes pcb (ackUnsent pcb ackno).1 := by
    unfold ackUnsent
    split <;> constructor <;> rfl
  have hunacked (t : Pcb) : SameSizes t (ackUnacked t ackno busy).1 := by
    unfold ackUnacked
    split
    · exact .refl _
    · rename_i seg _
      exact SameSizes.trans (t := removeFromUnack t seg) ⟨rfl, rfl⟩ (sameSizes_rexmitPrevious _ _ _)
  exact (hunsent.trans (hunacked _)).trans ⟨rfl, rfl⟩

theorem sameSizes_rtoPrepare (busy : Nat → Bool) :
    SameSizes pcb (tcpRexmitRtoPrepare pcb busy) := by
  unfold tcpRexmitRtoPrepare
  split
  · exact .refl _
  · split <;> constructor <;> rfl

/-- The segments made by a write have a byte at least. -/
structure Grown (pcb t : Pcb) : Prop where
  fresh : pcb.fresh ≤ t.fresh
  old : ∀ seg < pcb.fresh, t.len seg = pcb.len seg
  new : ∀ seg, pcb.fresh ≤ seg → seg < t.fresh → 0 < t.len seg

theorem Grown.refl (pcb : Pcb) : Grown pcb pcb := by
  refine ⟨Nat.le_refl _, fun _ _ => rfl, ?_⟩
  intro seg h h'
  exact absurd h' (Nat.not_lt.mpr h)

theorem grown_createSegments (hmax : 0 < maxLen) (fuel pos : Nat) (queue prevSeg : Option Nat) :
    Grown pcb (createSegments len maxLen fuel pos pcb queue prevSeg).1 := by
  induction fuel generalizing pos pcb queue prevSeg with
  | zero => exact .refl _
  | succ fuel ih =>
    rw [createSegments]
    let created := createSegment pcb (pcb.sndLbb + pos) (min (len - pos) maxLen) prevSeg
    split
    · have hlater : Grown created
          (createSegments len maxLen fuel (pos + min (len - pos) maxLen)
            created
            (queue.or (some pcb.fresh)) (some pcb.fresh)).1 := ih _ _ _
      obtain ⟨hfresh, hold, hnew⟩ := hlater
      refine ⟨Nat.le_trans (Nat.le_succ _) hfresh, ?_, ?_⟩
      · intro seg hseg
        rw [hold seg (Nat.lt_succ_of_lt hseg)]
        exact update_of_ne (by omega) _ _
      intro seg hseg hlt
      rcases Nat.eq_or_lt_of_le hseg with rfl | hseg
      · rw [hold pcb.fresh (Nat.lt_succ_self _)]
        have hself : created.len pcb.fresh = min (len - pos) maxLen := update_self _ _ _
        omega
      · exact hnew seg hseg hlt
    · exact .refl _

theorem grown_write (hmax : 0 < maxLen) : Grown pcb (tcpWriteNetml pcb len maxLen) := by
  have h : Grown pcb (createSegments len maxLen len 0 pcb none none).1 :=
    grown_createSegments hmax _ _ _ _
  unfold tcpWriteNetml
  generalize createSegments len maxLen len 0 pcb none none = r at h ⊢
  obtain ⟨hfresh, hold, hnew⟩ := h
  dsimp only
  split <;> exact ⟨hfresh, hold, hnew⟩

end Sizes

/-- Every segment has a byte at least and is marked as its transmissions ask for. -/
def Inv (s : State) : Prop :=
  ∀ seg < s.pcb.fresh, 0 < s.pcb.len seg ∧ Sending (s.isHot seg) (s.field seg) (s.sent seg)

section Steps
variable {s t : State}

theorem Inv.of_sameSizes (h : Inv s) (hsame : SameSizes s.pcb pcb) : Inv { s with pcb := pcb } := by
  intro seg hseg
  obtain ⟨hlen, hsending⟩ := h seg (by rwa [← hsame.fresh])
  refine ⟨?_, hsending⟩
  rwa [hsame.len]

theorem Inv.create (h : Inv s) (hgrown : Grown s.pcb pcb) (isHot : Bool) :
    Inv (s.create pcb isHot) := by
  intro seg hseg
  have hseg : seg < pcb.fresh := hseg
  by_cases hold : seg < s.pcb.fresh
  · obtain ⟨hlen, hsending⟩ := h seg hold
    refine ⟨?_, ?_⟩
    · change 0 < pcb.len seg
      rwa [hgrown.old seg hold]
    · simpa [State.create, Nat.not_le.mpr hold] using hsending
  · refine ⟨hgrown.new seg (Nat.not_lt.mp hold) hseg, ?_⟩
    simpa [State.create, Nat.not_lt.mp hold, hseg] using Sending.unsent isHot

theorem Inv.outputTurn (h : Inv s) (u : State) (hpcb : u.pcb = s.pcb) (hhot : u.isHot = s.isHot)
    (hfield : u.field = s.field) (hother : ∀ seg ≠ head, u.sent seg = s.sent seg)
    (hhead : Sending (s.isHot head) (s.field head) (s.sent head) →
      Sending (s.isHot head) (resendField (s.field head)) (u.sent head)) :
    Inv (u.outputTurn head) := by
  have hsame : SameSizes u.pcb (tcpOutputTurn u.pcb) := sameSizes_outputTurn
  intro seg hseg
  have hseg : seg < s.pcb.fresh := by
    rw [← hpcb, ← hsame.fresh]
    exact hseg
  obtain ⟨hlen, hsending⟩ := h seg hseg
  refine ⟨?_, ?_⟩
  · change 0 < (tcpOutputTurn u.pcb).len seg
    rwa [hsame.len, hpcb]
  rcases eq_or_ne seg head with rfl | heq
  · simpa [State.outputTurn, hpcb, hhot, hfield, hlen] using hhead hsending
  have hkeep : (u.outputTurn head).field seg = s.field seg := by
    unfold State.outputTurn
    dsimp only
    split
    · rw [update_of_ne heq, hfield]
    · rw [hfield]
  change Sending (u.isHot seg) ((u.outputTurn head).field seg) (u.sent seg)
  rwa [hhot, hkeep, hother seg heq]

theorem Inv.output {answer : Answer} (h : Inv s)
    (honce : answer = .sent → s.isHot head = true → s.sent head = [])
    (hstep : s.output head answer = some t) : Inv t := by
  cases answer with
  | sent =>
    cases hstep
    refine h.outputTurn (s.transmit head) rfl rfl rfl ?_ ?_
    · intro seg hne
      exact update_of_ne hne _ _
    · intro hsending
      simpa [State.transmit] using hsending.transmit (honce rfl)
  | busy =>
    obtain ⟨hsent, ⟨⟩⟩ := ite_none_left_eq_some.mp hstep
    exact h.outputTurn s rfl rfl rfl (fun _ _ => rfl) fun hsending => hsending.busy hsent
  | failed =>
    cases hstep
    exact h

theorem Inv.step {i : Input} (h : Inv s) (honce : HotOnce s i)
    (hstep : NetmlMarking.step s i = some t) : Inv t := by
  cases i with
  | write len maxLen isHot =>
    obtain ⟨pcb, hpcb, rfl⟩ := map_eq_some_iff.mp hstep
    obtain ⟨-, hpcb⟩ := ite_none_left_eq_some.mp hpcb
    obtain ⟨⟨-, hmax⟩, ⟨⟩⟩ := ite_none_right_eq_some.mp hpcb
    exact h.create (grown_write hmax) isHot
  | output answer =>
    obtain ⟨-, hstep⟩ := ite_none_left_eq_some.mp hstep
    obtain ⟨head, hunsent, hstep⟩ := bind_eq_some_iff.mp hstep
    refine h.output ?_ hstep
    rintro rfl
    exact honce head hunsent
  | ack ackno busy =>
    obtain ⟨pcb, hpcb, rfl⟩ := map_eq_some_iff.mp hstep
    obtain ⟨-, ⟨⟩⟩ := ite_none_left_eq_some.mp hpcb
    exact h.of_sameSizes (sameSizes_receiveAck ackno busy)
  | rtoPrepare busy =>
    obtain ⟨pcb, hpcb, rfl⟩ := map_eq_some_iff.mp hstep
    obtain ⟨-, ⟨⟩⟩ := ite_none_left_eq_some.mp hpcb
    exact h.of_sameSizes (sameSizes_rtoPrepare busy)

theorem Inv.initial (h : Initial s) : Inv s := by
  obtain ⟨tcpSndBuf, sndLbb, rfl⟩ := h
  intro seg hseg
  exact absurd hseg (Nat.not_lt_zero seg)

theorem Inv.marked (h : Inv s) : Marked s := by
  intro seg hseg n field hfield
  exact (h seg hseg).2.marked hfield

end Steps

/-- As long as no hot segment is sent again, every transmission is marked as it should be. -/
theorem marked_of_hotOnce {s : State} (h : Reach Initial HotOnce step s) : Marked s := by
  have hinv : Inv s := by
    apply h.invariant
    · intro s hs
      exact Inv.initial hs
    · intro s i t hs honce hstep
      exact hs.step honce hstep
  exact hinv.marked

/-- A cold and a hot segment, sent once each, and the cold one again after a timeout. -/
def coldAgain : List Input :=
  [.write 1 1 false, .write 1 1 true, .output .sent, .rtoPrepare fun _ => false,
    .output .failed, .output .sent, .output .sent]

theorem coldAgain_marked : ∃ s, Reach Initial HotOnce step s ∧ Marked s ∧
    (s.sent 0).map tcphOffsetFlags = [4, 6] ∧ (s.sent 1).map tcphOffsetFlags = [7] := by
  refine Reach.of_exec_left (s := { pcb := Pcb.new 10 0 }) HotOnce step coldAgain ?_ ⟨10, 0, rfl⟩
    fun s hs => marked_of_hotOnce hs
  decide +kernel

/-- Clearing touches the flags in the other byte, so a hot segment stays marked as hot. -/
theorem hot_resent_unmarked : ∃ s, Reach Initial Always step s ∧ ¬ Marked s := by
  have hrun : ∃ s, Reach Initial Always step s ∧
      0 < s.pcb.fresh ∧ s.isHot 0 = true ∧ (s.sent 0)[1]? = some 0x57 :=
    Reach.of_exec (s := { pcb := Pcb.new 10 0 }) Always step
      [.write 1 1 true, .output .sent, .rtoPrepare fun _ => false, .output .sent]
      (by decide +kernel) ⟨10, 0, rfl⟩
  obtain ⟨s, hreach, hseg, hhot, hsent⟩ := hrun
  refine ⟨s, hreach, ?_⟩
  intro hmarked
  obtain ⟨hmark, -⟩ := hmarked 0 hseg 1 0x57 hsent
  rw [hhot] at hmark
  exact absurd hmark (by decide)

end Uzmq.NetmlMarking
