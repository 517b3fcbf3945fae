import Mathlib

/-!
# The window in `tcp_output`

A whole call of `tcp_output` for one connection: the test of the window, which the
fork makes once before its loop, and the loop, which hands the segments of `unsent`
to `tcp_output_segment` until the Nagle algorithm or an error stops it.

The queues are lists here, their links are the subject of the module on the send
queues. Timers, the round trip estimation and the headers that
`tcp_output_segment` fills in are left out.
-/

namespace Uzmq.NetmlOutput

open List

/-- A queued segment, its sequence number in host order. -/
structure Seg where
  seqno : UInt32
  len : UInt16
  synOrFin : Bool := false
deriving DecidableEq

def tcpLen (seg : Seg) : UInt32 := seg.len.toUInt32 + if seg.synOrFin then 1 else 0

def tcpSeqLt (a b : UInt32) : Bool := 0x80000000 ≤ a - b

/-- `noDelay` stands for `TF_NODELAY` or `TF_INFR`. -/
structure Pcb where
  isBypass : Bool
  synSent : Bool := false
  lastack : UInt32
  sndNxt : UInt32
  sndWnd : UInt16
  cwnd : UInt16
  mss : UInt16
  sndBuf : UInt16
  sndQueuelen : UInt16
  noDelay : Bool := false
  nagleMemErr : Bool := false
  fin : Bool := false
  ackNow : Bool := false
  ackDelay : Bool := false
  persistCnt : UInt8 := 0
  persistBackoff : UInt8 := 0
  persistProbe : UInt8 := 0
  unsent : List Seg
  unacked : List Seg

inductive Err where
  | ok
  | rte
  | failed
deriving DecidableEq

/-- What a call finds around it: whether the input processing of the connection is
under way, whether there is a route and a local address, and which calls of
`tcp_output_segment` succeed. -/
structure Net where
  inputPcb : Bool := false
  route : Bool := true
  accepts : Nat → Bool

/-- `passed` are the segments passed to `tcp_output_segment`. -/
structure Output where
  pcb : Pcb
  err : Err
  passed : List Seg := []
  emptyAck : Bool := false

def tcpSndQueuelen : UInt16 := 512

def tcpDoOutputNagle (pcb : Pcb) : Bool :=
  pcb.unacked.isEmpty || pcb.noDelay ||
    (match pcb.unsent with
      | [] => false
      | [seg] => pcb.mss ≤ seg.len
      | _ :: _ :: _ => true) ||
    (pcb.sndBuf == 0 || tcpSndQueuelen ≤ pcb.sndQueuelen)

def wnd (pcb : Pcb) : UInt32 := (min pcb.sndWnd pcb.cwnd).toUInt32

/-- The segment lies in the window. -/
def Fits (pcb : Pcb) (seg : Seg) : Prop :=
  seg.seqno - pcb.lastack + seg.len.toUInt32 ≤ wnd pcb
  deriving Decidable

/-- `useg` is always the last segment of `unacked`. The code reads a null pointer if it lies exactly
`2 ^ 31` bytes from `seg`, so that each of the two comes before the other; this is left out. -/
def putUnacked (unacked : List Seg) (seg : Seg) : List Seg :=
  match unacked.getLast? with
  | none => [seg]
  | some useg =>
    if tcpSeqLt seg.seqno useg.seqno then
      unacked.takeWhile (fun cur => tcpSeqLt cur.seqno seg.seqno) ++
        seg :: unacked.dropWhile (fun cur => tcpSeqLt cur.seqno seg.seqno)
    else unacked ++ [seg]

/-- The rest of a turn of the loop, after `seg` has been sent. -/
def afterSegment (pcb : Pcb) (seg : Seg) (later : List Seg) : Pcb :=
  let sndNxt := seg.seqno + tcpLen seg
  { pcb with
    unsent := later
    ackDelay := pcb.ackDelay && pcb.synSent
    ackNow := pcb.ackNow && pcb.synSent
    sndNxt := if tcpSeqLt pcb.sndNxt sndNxt then sndNxt else pcb.sndNxt
    unacked := if 0 < tcpLen seg then putUnacked pcb.unacked seg else pcb.unacked }

def outputDone (pcb : Pcb) : Output := ⟨{ pcb with nagleMemErr := false }, .ok, [], false⟩

/-- The Nagle algorithm stops the loop at the head of `unsent`. -/
def held (pcb : Pcb) : Bool := !tcpDoOutputNagle pcb && !(pcb.nagleMemErr || pcb.fin)

/-- The loop over `unsent`, with the number of segments passed so far. -/
def outputLoop (accepts : Nat → Bool) : List Seg → Nat → Pcb → Output
  | [], _, pcb => outputDone pcb
  | seg :: later, n, pcb =>
    if held pcb then outputDone pcb
    else if accepts n then
      let out := outputLoop accepts later (n + 1) (afterSegment pcb seg later)
      { out with passed := seg :: out.passed }
    else ⟨{ pcb with nagleMemErr := true }, .failed, [seg], false⟩

/-- The window is closed: start the persist timer, or only acknowledge. -/
def outsideWindow (pcb : Pcb) : Output :=
  let pcb := if wnd pcb = pcb.sndWnd.toUInt32 ∧ pcb.unacked = [] ∧ pcb.persistBackoff = 0 then
      { pcb with persistCnt := 0, persistBackoff := 1, persistProbe := 0 }
    else pcb
  if pcb.ackNow then ⟨pcb, .ok, [], true⟩ else outputDone pcb

def tcpOutput (net : Net) (pcb : Pcb) : Output :=
  if net.inputPcb then ⟨pcb, .ok, [], false⟩
  else
    match pcb.unsent with
    | [] => if pcb.ackNow ∧ pcb.isBypass then ⟨pcb, .ok, [], true⟩ else outputDone pcb
    | seg :: _ =>
      if net.route then
        if pcb.isBypass ∧ ¬ Fits pcb seg then outsideWindow pcb
        else outputLoop net.accepts pcb.unsent 0 { pcb with persistBackoff := 0 }
      else ⟨pcb, .rte, [], false⟩

/-- The Nagle algorithm will stop in front of `seg`, once `before` has been sent. -/
def waits (pcb : Pcb) (before : List Seg) (seg : Seg) (after : List Seg) : Bool :=
  after.isEmpty && (!pcb.unacked.isEmpty || before.any (0 < tcpLen ·)) && !pcb.noDelay &&
    seg.len < pcb.mss && pcb.sndBuf != 0 && pcb.sndQueuelen < tcpSndQueuelen &&
    !pcb.nagleMemErr && !pcb.fin

/-- If the head of `unsent` lies in the window, so does every segment behind it that
neither the Nagle algorithm nor an error of the device keeps back. -/
def Windowed (net : Net) (pcb : Pcb) : Prop :=
  net.inputPcb = false → net.route = true →
    ∀ head before seg after, pcb.unsent = head :: before ++ seg :: after → Fits pcb head →
      (∀ k ≤ before.length, net.accepts k = true) →
      waits pcb (head :: before) seg after = false → Fits pcb seg

theorem putUnacked_ne_nil (unacked : List Seg) (seg : Seg) :
    (putUnacked unacked seg).isEmpty = false := by
  unfold putUnacked
  split
  · rfl
  · split <;> simp

variable {pcb : Pcb} {seg : Seg}

theorem held_eq_waits {later : List Seg} (hunsent : pcb.unsent = seg :: later) :
    held pcb = waits pcb [] seg later := by
  cases later with
  | nil =>
    have hmss : decide (seg.len < pcb.mss) = !decide (pcb.mss ≤ seg.len) := by
      rw [← decide_not]
      exact decide_eq_decide.mpr UInt16.not_le.symm
    have hlen : decide (pcb.sndQueuelen < tcpSndQueuelen) =
        !decide (tcpSndQueuelen ≤ pcb.sndQueuelen) := by
      rw [← decide_not]
      exact decide_eq_decide.mpr UInt16.not_le.symm
    simp [held, tcpDoOutputNagle, waits, hunsent, hmss, hlen, Bool.and_assoc, bne]
  | cons next later => simp [held, tcpDoOutputNagle, waits, hunsent]

/-- Only the segments that went to `unacked` before change what makes a segment wait. -/
theorem waits_afterSegment (pcb : Pcb) (sent seg : Seg) (later before after : List Seg) :
    waits (afterSegment pcb sent later) before seg after =
      waits pcb (sent :: before) seg after := by
  unfold waits afterSegment
  by_cases hlen : 0 < tcpLen sent
  · simp [hlen, putUnacked_ne_nil]
  · simp [hlen]

theorem waits_of_later {before after : List Seg} (h : after ≠ []) :
    waits pcb before seg after = false := by
  cases after with
  | nil => exact absurd rfl h
  | cons _ _ => simp [waits]

/-- The loop passes exactly the segments up to the first error that do not wait. -/
theorem mem_passed_iff (accepts : Nat → Bool) (seg : Seg) (queue : List Seg) (n : Nat) (pcb : Pcb)
    (hunsent : pcb.unsent = queue) :
    seg ∈ (outputLoop accepts queue n pcb).passed ↔
      ∃ before after, queue = before ++ seg :: after ∧
        (∀ k < before.length, accepts (n + k) = true) ∧ waits pcb before seg after = false := by
  induction queue generalizing n pcb with
  | nil => simp [outputLoop, outputDone]
  | cons head later ih =>
    have hheld := held_eq_waits hunsent
    constructor
    · intro hmem
      rw [outputLoop] at hmem
      split at hmem
      · simp [outputDone] at hmem
      rename_i hnot
      rw [hheld, Bool.not_eq_true] at hnot
      split at hmem
      · rename_i haccept
        rcases mem_cons.mp hmem with rfl | hmem
        · exact ⟨[], later, rfl, by simp, hnot⟩
        obtain ⟨before, after, rfl, haccepts, hwaits⟩ := (ih (n + 1) _ rfl).mp hmem
        rw [waits_afterSegment] at hwaits
        refine ⟨head :: before, after, rfl, ?_, hwaits⟩
        intro k hk
        cases k with
        | zero => exact haccept
        | succ k =>
          have hnext := haccepts k (Nat.lt_of_succ_lt_succ hk)
          rwa [Nat.add_right_comm, Nat.add_assoc] at hnext
      · obtain rfl := mem_singleton.mp hmem
        exact ⟨[], later, rfl, by simp, hnot⟩
    · rintro ⟨before, after, hqueue, haccepts, hwaits⟩
      cases before with
      | nil =>
        obtain ⟨rfl, rfl⟩ := cons.inj hqueue
        rw [outputLoop, hheld, hwaits, if_neg Bool.false_ne_true]
        split <;> exact mem_cons_self
      | cons first before =>
        obtain ⟨rfl, rfl⟩ := cons.inj hqueue
        have hnot : held pcb = false := by rw [hheld, waits_of_later (by simp)]
        have haccept : accepts n = true := haccepts 0 (by simp)
        rw [outputLoop, hnot, if_neg Bool.false_ne_true, if_pos haccept]
        refine mem_cons_of_mem _ ((ih (n + 1) _ rfl).mpr ⟨before, after, rfl, ?_, ?_⟩)
        · intro k hk
          have hnext := haccepts (k + 1) (Nat.succ_lt_succ hk)
          rwa [← Nat.add_assoc, Nat.add_right_comm] at hnext
        · rw [waits_afterSegment, hwaits]

theorem passed_outsideWindow (pcb : Pcb) : (outsideWindow pcb).passed = [] := by
  unfold outsideWindow outputDone
  dsimp only
  split <;> split <;> rfl

/-- Every segment that a call passes on lies in the window, exactly if the segments
behind the head that can be reached do. -/
theorem passed_fit_iff (net : Net) (pcb : Pcb) (hbypass : pcb.isBypass = true) :
    (∀ seg ∈ (tcpOutput net pcb).passed, Fits pcb seg) ↔ Windowed net pcb := by
  constructor
  · intro hfits hinput hroute head before seg after hunsent hhead haccepts hwaits
    apply hfits
    rw [tcpOutput, hinput, if_neg Bool.false_ne_true, hunsent]
    simp only [cons_append, hroute, if_true, hhead, not_true, and_false, if_false]
    refine (mem_passed_iff _ _ _ _ _ (by simp)).mpr ⟨head :: before, after, rfl, ?_, hwaits⟩
    intro k hk
    rw [Nat.zero_add]
    exact haccepts k (Nat.le_of_lt_succ hk)
  · intro hwindowed seg hmem
    rw [tcpOutput] at hmem
    split at hmem
    · exact absurd hmem not_mem_nil
    rename_i hinput
    split at hmem
    · split at hmem <;> exact absurd hmem not_mem_nil
    rename_i head later hunsent
    split at hmem
    · rename_i hroute
      split at hmem
      · simp [passed_outsideWindow] at hmem
      rename_i hhead
      have hhead : Fits pcb head := by
        by_contra hnot
        exact hhead ⟨hbypass, hnot⟩
      obtain ⟨before, after, hqueue, haccepts, hwaits⟩ :=
        (mem_passed_iff _ _ _ _ { pcb with persistBackoff := 0 } rfl).mp hmem
      cases before with
      | nil =>
        rw [hunsent] at hqueue
        obtain ⟨rfl, rfl⟩ := cons.inj hqueue
        exact hhead
      | cons first before =>
        have hfirst : head = first := by
          rw [hunsent] at hqueue
          exact (cons.inj hqueue).1
        subst hfirst
        refine hwindowed (Bool.eq_false_iff.mpr hinput) hroute _ _ _ _ hqueue hhead ?_ hwaits
        intro k hk
        simpa using haccepts k (Nat.lt_succ_of_le hk)
    · exact absurd hmem not_mem_nil

/-- A connection whose window holds one segment of a kilobyte. -/
def narrow (unsent : List Seg) : Pcb where
  isBypass := true
  lastack := 0
  sndNxt := 0
  sndWnd := 1000
  cwnd := 4000
  mss := 1000
  sndBuf := 2096
  sndQueuelen := 4
  unsent := unsent
  unacked := []

theorem narrow_passed_fit : (narrow [⟨0, 600, false⟩, ⟨600, 400, false⟩]).isBypass = true ∧
    ∀ seg ∈ (tcpOutput ⟨false, true, fun _ => true⟩
        (narrow [⟨0, 600, false⟩, ⟨600, 400, false⟩])).passed,
      Fits (narrow [⟨0, 600, false⟩, ⟨600, 400, false⟩]) seg := by
  refine ⟨rfl, (passed_fit_iff _ _ rfl).mpr ?_⟩
  intro _ _ head before seg after hunsent _ _ _
  have hmem : seg ∈ (narrow [⟨0, 600, false⟩, ⟨600, 400, false⟩]).unsent := by
    rw [hunsent]
    simp
  have hall : ∀ s ∈ (narrow [⟨0, 600, false⟩, ⟨600, 400, false⟩]).unsent,
      Fits (narrow [⟨0, 600, false⟩, ⟨600, 400, false⟩]) s := by decide
  exact hall seg hmem

/-- The first segment fills the window, the second is sent all the same. -/
theorem narrow_overrun : (narrow [⟨0, 1000, false⟩, ⟨1000, 1000, false⟩]).isBypass = true ∧
    (⟨1000, 1000, false⟩ : Seg) ∈ (tcpOutput ⟨false, true, fun _ => true⟩
      (narrow [⟨0, 1000, false⟩, ⟨1000, 1000, false⟩])).passed ∧
    ¬ Fits (narrow [⟨0, 1000, false⟩, ⟨1000, 1000, false⟩]) ⟨1000, 1000, false⟩ := by
  decide

end Uzmq.NetmlOutput
