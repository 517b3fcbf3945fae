import Mathlib

/-!
# Cutting data into segments

`tcp_write_netml` with all its exits: the checks before the loop, the loop that cuts
the data and numbers the segments, and the exit it takes when an allocation fails or
the queue grows too long.

Timestamps and window scaling are switched off, so that segments have no options and
windows are 16 bits wide. The queues are lists here.
-/

namespace Uzmq.NetmlWrite

open List

inductive TcpState where
  | closed | listen | synSent | synRcvd | established | finWait1 | finWait2 | closeWait
  | closing | lastAck | timeWait
deriving DecidableEq

/-- The values of `err_t` that matter here. -/
inductive Err where
  | ok | mem | rte | val | wouldblock | conn
  | other (code : Nat)
deriving DecidableEq

def netmlMaxNode : Nat := 128

def tcpSndQueuelen : Nat := 512

/-- `sizeof(struct internal_hdr)` -/
def internalHdrSize : UInt16 := 12

def optlen : UInt16 := 0

def tcpHlen : Nat := 20

/-- A segment with its internal header; numbers are in host order. -/
structure Seg where
  payload : List UInt8
  seqno : UInt32
  dstId : UInt16
  srcId : UInt16
  intSeqno : UInt32
  intTunlno : UInt32
  isHot : Bool
deriving DecidableEq

/-- The counters of `tcp_internal_id` for data to be sent to a node. -/
structure Worker where
  intseq : UInt32
  inttunl : UInt32
deriving DecidableEq

structure Pcb where
  state : TcpState
  localId : UInt16
  mss : UInt16
  sndWndMax : UInt16
  sndLbb : UInt32
  sndBuf : UInt16
  sndQueuelen : UInt16
  nagleMemErr : Bool := false
  unsent : List Seg := []
  unacked : List Seg := []
  internalConn : Fin netmlMaxNode → Worker

/-- The allocations of a turn of the loop: all succeed or one fails. -/
inductive Alloc where
  | ok | noData | noHeader | noSegment
deriving DecidableEq

def mssLocal (pcb : Pcb) : UInt16 :=
  let mss := min pcb.mss (pcb.sndWndMax / 2)
  if mss = 0 then pcb.mss else mss

def maxLen (pcb : Pcb) : Nat := (mssLocal pcb - optlen - internalHdrSize).toNat

/-- What the two assertions on the queues say together. -/
def Consistent (pcb : Pcb) : Prop :=
  pcb.sndQueuelen ≠ 0 ↔ pcb.unacked ≠ [] ∨ pcb.unsent ≠ []
  deriving Decidable

/-- A failed assertion gives `none`. -/
def tcpWriteChecks (pcb : Pcb) (len : Nat) : Option Err :=
  if pcb.state ≠ .established ∧ pcb.state ≠ .closeWait ∧ pcb.state ≠ .synSent ∧
      pcb.state ≠ .synRcvd then some .conn
  else if len = 0 then some .ok
  else if pcb.sndBuf.toNat < len then some .mem
  else if tcpSndQueuelen ≤ pcb.sndQueuelen.toNat then some .mem
  else if Consistent pcb then some .ok
  else none

/-- `pbuf_add_header` refuses the TCP header, with which `tot_len`, a `u16_t`, would
overflow. `pbuf_cat` has added up the lengths before without a check. -/
def addHeaderFails (seglen : Nat) : Prop :=
  2 ^ 16 ≤ (optlen.toNat + internalHdrSize.toNat + seglen) % 2 ^ 16 + tcpHlen
  deriving Decidable

/-- How the loop was left. It is still `running` if the fuel did not suffice. -/
inductive Status where
  | done | memerr | running
deriving DecidableEq

structure Loop where
  status : Status
  worker : Worker
  queuelen : Nat
  queue : List Seg := []

section Write
variable (pcb : Pcb) (arg : List UInt8) (remoteId : Fin netmlMaxNode) (isHot : Bool)

def segment (pos seglen : Nat) (worker : Worker) : Seg where
  payload := (arg.drop pos).take seglen
  seqno := pcb.sndLbb + UInt32.ofNat pos
  dstId := UInt16.ofNat remoteId
  srcId := pcb.localId
  intSeqno := worker.intseq
  intTunlno := worker.inttunl
  isHot := isHot

def Worker.advance (worker : Worker) (seglen : Nat) : Worker where
  intseq := worker.intseq + UInt32.ofNat seglen
  inttunl := if isHot then worker.inttunl else worker.inttunl + UInt32.ofNat seglen

/-- The loop. A segment takes two buffers, one for the headers and one for the data.
`tcp_create_segment` fails without memory or without room for the TCP header. -/
def segmentLoop (alloc : Nat → Alloc) : Nat → Nat → Nat → Worker → Nat → Loop
  | 0, _, _, worker, queuelen => ⟨.running, worker, queuelen, []⟩
  | fuel + 1, turn, pos, worker, queuelen =>
    if pos < arg.length then
      let seglen := min (arg.length - pos) (maxLen pcb)
      if alloc turn = .noData ∨ alloc turn = .noHeader then ⟨.memerr, worker, queuelen, []⟩
      else if tcpSndQueuelen < queuelen + 2 then ⟨.memerr, worker, queuelen + 2, []⟩
      else if alloc turn = .noSegment ∨ addHeaderFails seglen then
        ⟨.memerr, worker, queuelen + 2, []⟩
      else
        let loop := segmentLoop alloc fuel (turn + 1) (pos + seglen)
          (Worker.advance isHot worker seglen) (queuelen + 2)
        { loop with queue := segment pcb arg remoteId isHot pos seglen worker :: loop.queue }
    else ⟨.done, worker, queuelen, []⟩

/-- Every turn adds to the queue, so it is over before the fuel is. -/
def runLoop (alloc : Nat → Alloc) : Loop :=
  segmentLoop pcb arg remoteId isHot alloc (tcpSndQueuelen + 1) 0 0 (pcb.internalConn remoteId)
    pcb.sndQueuelen.toNat

def setWorker (worker : Worker) : Pcb :=
  { pcb with internalConn := Function.update pcb.internalConn remoteId worker }

/-- The exit at `memerr` has no `return`: what is returned is what happens to be in the
register, `junk`. A loop that never ends or a failed assertion returns nothing; the
assertions at the exits hold if those of the checks do. -/
def tcpWriteNetml (alloc : Nat → Alloc) (junk : Err) : Option (Err × Pcb) :=
  if pcb.localId = 0xffff then some (.val, pcb)
  else
    match tcpWriteChecks pcb arg.length with
    | none => none
    | some .ok =>
      let loop := runLoop pcb arg remoteId isHot alloc
      match loop.status with
      | .running => none
      | .memerr => some (junk, { setWorker pcb remoteId loop.worker with nagleMemErr := true })
      | .done =>
        some (.ok, { setWorker pcb remoteId loop.worker with
          unsent := pcb.unsent ++ loop.queue
          sndLbb := pcb.sndLbb + UInt32.ofNat arg.length
          sndBuf := pcb.sndBuf - UInt16.ofNat arg.length
          sndQueuelen := UInt16.ofNat loop.queuelen })
    | some err => some (err, { pcb with nagleMemErr := pcb.nagleMemErr || err = .mem })

end Write

/-- The segments follow each other, from the given numbers on. -/
def Numbered (isHot : Bool) : UInt32 → Worker → List Seg → Prop
  | _, _, [] => True
  | seqno, worker, seg :: later =>
    seg.seqno = seqno ∧ seg.intSeqno = worker.intseq ∧ seg.intTunlno = worker.inttunl ∧
      Numbered isHot (seqno + UInt32.ofNat seg.payload.length)
        (worker.advance isHot seg.payload.length) later

/-- The segments `segs` are in `t` and hold the data. -/
structure Written (pcb : Pcb) (arg : List UInt8) (remoteId : Fin netmlMaxNode) (isHot : Bool)
    (t : Pcb) (segs : List Seg) : Prop where
  unsent : t.unsent = pcb.unsent ++ segs
  filled : ∀ seg ∈ segs, seg.payload ≠ []
  data : segs.flatMap (·.payload) = arg
  size : ∀ seg ∈ segs, seg.payload.length + optlen.toNat + internalHdrSize.toNat ≤ pcb.mss.toNat
  numbered : Numbered isHot pcb.sndLbb (pcb.internalConn remoteId) segs
  sndLbb : t.sndLbb = pcb.sndLbb + UInt32.ofNat arg.length
  sndBuf : t.sndBuf.toNat + arg.length = pcb.sndBuf.toNat
  worker : t.internalConn remoteId = (pcb.internalConn remoteId).advance isHot arg.length

/-- The queue limit is not reached in any turn. -/
def Roomy (pcb : Pcb) (len : Nat) : Prop :=
  ∀ turn, turn * maxLen pcb < len → pcb.sndQueuelen.toNat + 2 * (turn + 1) ≤ tcpSndQueuelen

section Loop
variable {pcb : Pcb} {arg : List UInt8} {remoteId : Fin netmlMaxNode} {isHot : Bool}
variable {pos queuelen turn : Nat} {worker : Worker} {alloc : Nat → Alloc}

theorem advance_advance (worker : Worker) (a b : Nat) :
    (worker.advance isHot a).advance isHot b = worker.advance isHot (a + b) := by
  cases isHot <;> simp [Worker.advance, UInt32.ofNat_add, UInt32.add_assoc]

theorem advance_zero (worker : Worker) : worker.advance isHot 0 = worker := by
  cases isHot <;> simp [Worker.advance]

/-- What the loop makes of the data from `pos` on. -/
structure Cuts (pcb : Pcb) (arg : List UInt8) (isHot : Bool) (pos : Nat) (worker : Worker)
    (loop : Loop) : Prop where
  done : loop.status = .done
  counters : loop.worker = worker.advance isHot (arg.length - pos)
  data : loop.queue.flatMap (·.payload) = arg.drop pos
  filled : ∀ seg ∈ loop.queue, seg.payload ≠ []
  size : ∀ seg ∈ loop.queue, seg.payload.length ≤ maxLen pcb
  head : pos < arg.length → ∃ seg ∈ loop.queue,
    seg.payload.length = min (arg.length - pos) (maxLen pcb)
  numbered : Numbered isHot (pcb.sndLbb + UInt32.ofNat pos) worker loop.queue

theorem cuts_end (hpos : arg.length ≤ pos) :
    Cuts pcb arg isHot pos worker ⟨.done, worker, queuelen, []⟩ := by
  refine ⟨rfl, ?_, ?_, by simp, by simp, ?_, trivial⟩
  · rw [Nat.sub_eq_zero_of_le hpos, advance_zero]
  · rw [drop_eq_nil_of_le hpos]
    rfl
  · intro h
    exact absurd h (Nat.not_lt.mpr hpos)

theorem cuts_segment {loop : Loop} (hpos : pos < arg.length) (hmax : 0 < maxLen pcb)
    (h : Cuts pcb arg isHot (pos + min (arg.length - pos) (maxLen pcb))
      (worker.advance isHot (min (arg.length - pos) (maxLen pcb))) loop) :
    Cuts pcb arg isHot pos worker
      { loop with
        queue := (segment pcb arg remoteId isHot pos (min (arg.length - pos) (maxLen pcb)) worker ::
          loop.queue) } := by
  have hlength : ((arg.drop pos).take (min (arg.length - pos) (maxLen pcb))).length =
      min (arg.length - pos) (maxLen pcb) := by
    rw [length_take, length_drop]
    omega
  constructor
  · exact h.done
  · rw [h.counters, advance_advance]
    congr 1
    omega
  · change (segment pcb arg remoteId isHot pos _ worker).payload ++ loop.queue.flatMap _ = _
    rw [h.data, ← drop_drop]
    exact take_append_drop _ _
  · intro seg hseg
    rcases mem_cons.mp hseg with rfl | hseg
    · intro hnil
      have hzero := congrArg length hnil
      rw [segment, hlength, length_nil] at hzero
      omega
    · exact h.filled seg hseg
  · intro seg hseg
    rcases mem_cons.mp hseg with rfl | hseg
    · rw [segment, hlength]
      omega
    · exact h.size seg hseg
  · intro _
    exact ⟨_, mem_cons_self, hlength⟩
  · refine ⟨rfl, rfl, rfl, ?_⟩
    have hnumbered := h.numbered
    rw [UInt32.ofNat_add, ← UInt32.add_assoc] at hnumbered
    simpa only [segment, hlength] using hnumbered

/-- The `k`-th turn from here on gets its memory, and its segment has room in the queue
and for the TCP header. -/
def Goes (pcb : Pcb) (len : Nat) (alloc : Nat → Alloc) (turn pos queuelen k : Nat) : Prop :=
  alloc (turn + k) = .ok ∧ queuelen + 2 * (k + 1) ≤ tcpSndQueuelen ∧
    ¬ addHeaderFails (min (len - (pos + k * maxLen pcb)) (maxLen pcb))

theorem goes_next {len : Nat} (k : Nat) :
    Goes pcb len alloc (turn + 1) (pos + maxLen pcb) (queuelen + 2) k ↔
      Goes pcb len alloc turn pos queuelen (k + 1) := by
  have hturn : turn + 1 + k = turn + (k + 1) := by omega
  have hqueue : queuelen + 2 + 2 * (k + 1) = queuelen + 2 * (k + 1 + 1) := by omega
  have hpos : pos + maxLen pcb + k * maxLen pcb = pos + (k + 1) * maxLen pcb := by
    rw [Nat.succ_mul]
    omega
  rw [Goes, Goes, hturn, hqueue, hpos]

theorem segmentLoop_goes (hpos : pos < arg.length)
    (hgoes : Goes pcb arg.length alloc turn pos queuelen 0) (fuel : Nat) :
    segmentLoop pcb arg remoteId isHot alloc (fuel + 1) turn pos worker queuelen =
      let seglen := min (arg.length - pos) (maxLen pcb)
      let loop := segmentLoop pcb arg remoteId isHot alloc fuel (turn + 1) (pos + seglen)
        (worker.advance isHot seglen) (queuelen + 2)
      { loop with queue := segment pcb arg remoteId isHot pos seglen worker :: loop.queue } := by
  obtain ⟨halloc, hroom, hheader⟩ := hgoes
  rw [Nat.add_zero] at halloc
  rw [Nat.zero_mul, Nat.add_zero] at hheader
  rw [segmentLoop, if_pos hpos]
  simp only [halloc, reduceCtorEq, or_self, if_false, Nat.not_lt.mpr hroom, hheader]

theorem segmentLoop_halts (remoteId : Fin netmlMaxNode) (isHot : Bool) (worker : Worker)
    (hpos : pos < arg.length) (hnot : ¬ Goes pcb arg.length alloc turn pos queuelen 0)
    (fuel : Nat) :
    ∃ queuelen', segmentLoop pcb arg remoteId isHot alloc (fuel + 1) turn pos worker queuelen =
      ⟨.memerr, worker, queuelen', []⟩ := by
  rw [segmentLoop, if_pos hpos]
  dsimp only
  split
  · exact ⟨_, rfl⟩
  split
  · exact ⟨_, rfl⟩
  split
  · exact ⟨_, rfl⟩
  rename_i hmemory hroom hsegment
  refine absurd ⟨?_, Nat.not_lt.mp hroom, ?_⟩ hnot
  · rw [Nat.add_zero]
    cases halloc : alloc turn <;> simp_all
  · rw [Nat.zero_mul, Nat.add_zero]
    exact fun hfails => hsegment (.inr hfails)

theorem segmentLoop_cuts (hmax : 0 < maxLen pcb) (fuel turn pos queuelen : Nat) (worker : Worker)
    (hfuel : tcpSndQueuelen + 2 ≤ queuelen + 2 * fuel) (hlimit : queuelen ≤ tcpSndQueuelen)
    (hgoes : ∀ k, pos + k * maxLen pcb < arg.length →
      Goes pcb arg.length alloc turn pos queuelen k) :
    Cuts pcb arg isHot pos worker
      (segmentLoop pcb arg remoteId isHot alloc fuel turn pos worker queuelen) := by
  induction fuel generalizing turn pos queuelen worker with
  | zero => omega
  | succ fuel ih =>
    by_cases hpos : pos < arg.length
    · have hfirst := hgoes 0 (by omega)
      have hroom := hfirst.2.1
      rw [segmentLoop_goes hpos hfirst]
      apply cuts_segment hpos hmax
      rcases Nat.le_total (arg.length - pos) (maxLen pcb) with hlast | hfull
      · -- Nothing is left for the next turn.
        rw [Nat.min_eq_left hlast]
        apply ih
        · omega
        · omega
        · intro k hk
          omega
      · rw [Nat.min_eq_right hfull]
        apply ih
        · omega
        · omega
        · intro k hk
          refine (goes_next k).mpr (hgoes (k + 1) ?_)
          rw [Nat.succ_mul]
          omega
    · rw [segmentLoop, if_neg hpos]
      exact cuts_end (Nat.not_lt.mp hpos)

/-- The counters have been advanced for every segment made before. -/
theorem segmentLoop_stops (k : Nat) {fuel : Nat} (hfuel : k < fuel)
    (hreached : pos + k * maxLen pcb < arg.length)
    (hbefore : ∀ j < k, Goes pcb arg.length alloc turn pos queuelen j)
    (hstops : ¬ Goes pcb arg.length alloc turn pos queuelen k) :
    (segmentLoop pcb arg remoteId isHot alloc fuel turn pos worker queuelen).status = .memerr ∧
      (segmentLoop pcb arg remoteId isHot alloc fuel turn pos worker queuelen).worker =
        worker.advance isHot (k * maxLen pcb) := by
  obtain ⟨fuel, rfl⟩ := Nat.exists_eq_succ_of_ne_zero (Nat.ne_of_gt (Nat.zero_lt_of_lt hfuel))
  induction k generalizing fuel turn pos queuelen worker with
  | zero =>
    obtain ⟨queuelen', hloop⟩ := segmentLoop_halts remoteId isHot worker (by omega) hstops fuel
    rw [hloop, Nat.zero_mul, advance_zero]
    exact ⟨rfl, rfl⟩
  | succ k ih =>
    rw [Nat.succ_mul] at hreached
    have hseglen : min (arg.length - pos) (maxLen pcb) = maxLen pcb := by omega
    have hadvance : worker.advance isHot ((k + 1) * maxLen pcb) =
        (worker.advance isHot (maxLen pcb)).advance isHot (k * maxLen pcb) := by
      rw [advance_advance, Nat.succ_mul, Nat.add_comm]
    rw [segmentLoop_goes (by omega) (hbefore 0 (Nat.succ_pos k)), hseglen, hadvance]
    obtain ⟨fuel, rfl⟩ := Nat.exists_eq_succ_of_ne_zero (show fuel ≠ 0 by omega)
    apply ih
    · omega
    · intro j hj
      exact (goes_next j).mpr (hbefore (j + 1) (by omega))
    · rw [goes_next]
      exact hstops
    · omega

end Loop

section Segmentation
variable {pcb : Pcb} {arg : List UInt8} {remoteId : Fin netmlMaxNode} {isHot : Bool}
variable {alloc : Nat → Alloc}

/-- Data may be written in this state of the connection. -/
def Writable (pcb : Pcb) : Prop :=
  pcb.state = .established ∨ pcb.state = .closeWait ∨ pcb.state = .synSent ∨ pcb.state = .synRcvd

/-- The segment size leaves no room for the headers, so that the length of the payload
wraps around, and the data is too long for one segment. -/
def Overlong (pcb : Pcb) (len : Nat) : Prop :=
  mssLocal pcb < optlen + internalHdrSize ∧
    pcb.mss.toNat < len + optlen.toNat + internalHdrSize.toNat

theorem mssLocal_le (pcb : Pcb) : (mssLocal pcb).toNat ≤ pcb.mss.toNat := by
  have hmin : (min pcb.mss (pcb.sndWndMax / 2)).toNat ≤ pcb.mss.toNat := by
    change (if pcb.mss ≤ pcb.sndWndMax / 2 then pcb.mss else pcb.sndWndMax / 2).toNat ≤ _
    split
    · exact Nat.le_refl _
    · rename_i h
      exact UInt16.le_iff_toNat_le.mp (UInt16.le_of_lt (UInt16.not_le.mp h))
  unfold mssLocal
  dsimp only
  split
  · exact Nat.le_refl _
  · exact hmin

theorem headers_toNat : (optlen + internalHdrSize).toNat = 12 := rfl

theorem maxLen_eq (pcb : Pcb) : maxLen pcb = (2 ^ 16 - 12 + (mssLocal pcb).toNat) % 2 ^ 16 := by
  simp [maxLen, optlen, internalHdrSize, UInt16.toNat_sub]

theorem maxLen_of_not_lt (h : ¬ mssLocal pcb < optlen + internalHdrSize) :
    maxLen pcb + 12 = (mssLocal pcb).toNat := by
  rw [UInt16.lt_iff_toNat_lt, headers_toNat] at h
  have hlt := (mssLocal pcb).toNat_lt
  rw [maxLen_eq]
  omega

theorem maxLen_of_lt (h : mssLocal pcb < optlen + internalHdrSize) :
    maxLen pcb + 12 = 2 ^ 16 + (mssLocal pcb).toNat := by
  rw [UInt16.lt_iff_toNat_lt, headers_toNat] at h
  rw [maxLen_eq]
  omega

theorem maxLen_pos (hpos : 0 < arg.length) (hroomy : Roomy pcb arg.length) : 0 < maxLen pcb := by
  rcases Nat.eq_zero_or_pos (maxLen pcb) with hzero | hmax
  · have hfull := hroomy tcpSndQueuelen (by rw [hzero]; omega)
    omega
  · exact hmax

/-- The checks let a write pass. -/
structure Allowed (pcb : Pcb) (len : Nat) : Prop where
  writable : Writable pcb
  fits : 0 < len → len ≤ pcb.sndBuf.toNat
  queue : 0 < len → pcb.sndQueuelen.toNat < tcpSndQueuelen
  consistent : 0 < len → Consistent pcb

theorem tcpWriteChecks_ok_iff (pcb : Pcb) (len : Nat) :
    tcpWriteChecks pcb len = some .ok ↔ Allowed pcb len := by
  have hstate : ¬ (pcb.state ≠ .established ∧ pcb.state ≠ .closeWait ∧ pcb.state ≠ .synSent ∧
      pcb.state ≠ .synRcvd) ↔ Writable pcb := by
    unfold Writable
    tauto
  constructor
  · intro h
    unfold tcpWriteChecks at h
    split at h
    · cases h
    rename_i hwritable
    rw [hstate] at hwritable
    split at h
    · exact ⟨hwritable, by omega, by omega, by omega⟩
    split at h
    · cases h
    split at h
    · cases h
    split at h
    · rename_i hconsistent
      exact ⟨hwritable, by omega, by omega, fun _ => hconsistent⟩
    · cases h
  · rintro ⟨hwritable, hfits, hqueue, hconsistent⟩
    rw [tcpWriteChecks, if_neg (hstate.mpr hwritable)]
    split
    · rfl
    · rename_i hzero
      have hpos : 0 < len := Nat.pos_of_ne_zero hzero
      rw [if_neg (Nat.not_lt.mpr (hfits hpos)), if_neg (Nat.not_le.mpr (hqueue hpos)),
        if_pos (hconsistent hpos)]

/-- If the first segment has room for the TCP header, the others have. -/
theorem addHeaderFails_later {len : Nat} (hlen : len < 2 ^ 16)
    (hfirst : ¬ addHeaderFails (min len (maxLen pcb))) (k : Nat) (hk : k * maxLen pcb < len) :
    ¬ addHeaderFails (min (len - k * maxLen pcb) (maxLen pcb)) := by
  cases k with
  | zero => simpa using hfirst
  | succ k =>
    rw [Nat.succ_mul] at hk ⊢
    change ¬ 2 ^ 16 ≤ (0 + 12 + _) % 2 ^ 16 + 20 at hfirst ⊢
    generalize k * maxLen pcb = before at hk ⊢
    omega

/-- The write gets into the loop and leaves it in this turn without having cut all data. -/
structure Stops (pcb : Pcb) (len : Nat) (alloc : Nat → Alloc) (turn : Nat) : Prop where
  known : pcb.localId ≠ 0xffff
  allowed : Allowed pcb len
  reached : turn * maxLen pcb < len
  before : ∀ k < turn, Goes pcb len alloc 0 0 pcb.sndQueuelen.toNat k
  stops : ¬ Goes pcb len alloc 0 0 pcb.sndQueuelen.toNat turn

/-- A write that stops has only advanced the counters of its destination. -/
theorem Stops.memerr {turn : Nat} (h : Stops pcb arg.length alloc turn)
    (remoteId : Fin netmlMaxNode) (isHot : Bool) (junk : Err) :
    tcpWriteNetml pcb arg remoteId isHot alloc junk =
      some (junk, { setWorker pcb remoteId
        ((pcb.internalConn remoteId).advance isHot (turn * maxLen pcb)) with
          nagleMemErr := true }) := by
  obtain ⟨hknown, hallowed, hreached, hbefore, hfail⟩ := h
  have hfuel : turn < tcpSndQueuelen + 1 := by
    cases turn with
    | zero => exact Nat.succ_pos _
    | succ k =>
      have hroom := (hbefore k (Nat.lt_succ_self k)).2.1
      omega
  have hloop : (runLoop pcb arg remoteId isHot alloc).status = .memerr ∧
      (runLoop pcb arg remoteId isHot alloc).worker =
        (pcb.internalConn remoteId).advance isHot (turn * maxLen pcb) := by
    apply segmentLoop_stops turn hfuel
    · omega
    · exact hbefore
    · exact hfail
  rw [tcpWriteNetml, if_neg hknown, (tcpWriteChecks_ok_iff pcb _).mpr hallowed]
  simp only [hloop.1, hloop.2]

/-- A write that is allowed and finds room in the queue cuts the data into segments. -/
theorem tcpWriteNetml_cuts (remoteId : Fin netmlMaxNode) (isHot : Bool)
    (halloc : ∀ n, alloc n = .ok) (junk : Err) (hpos : 0 < arg.length)
    (hallowed : Allowed pcb arg.length) (hroomy : Roomy pcb arg.length)
    (hid : pcb.localId ≠ 0xffff) (hheader : ¬ addHeaderFails (min arg.length (maxLen pcb))) :
    ∃ t loop, tcpWriteNetml pcb arg remoteId isHot alloc junk = some (.ok, t) ∧
      Cuts pcb arg isHot 0 (pcb.internalConn remoteId) loop ∧
      t.unsent = pcb.unsent ++ loop.queue ∧
      t.sndLbb = pcb.sndLbb + UInt32.ofNat arg.length ∧
      t.sndBuf = pcb.sndBuf - UInt16.ofNat arg.length ∧
      t.internalConn remoteId = loop.worker := by
  have hroom := hroomy 0 (by omega)
  have hcuts : Cuts pcb arg isHot 0 (pcb.internalConn remoteId)
      (runLoop pcb arg remoteId isHot alloc) := by
    apply segmentLoop_cuts (maxLen_pos hpos hroomy)
    · omega
    · omega
    · intro k hk
      have hlt := pcb.sndBuf.toNat_lt
      have hlen := hallowed.fits hpos
      rw [Nat.zero_add] at hk
      refine ⟨halloc _, hroomy k hk, ?_⟩
      rw [Nat.zero_add]
      exact addHeaderFails_later (by omega) hheader k hk
  rw [tcpWriteNetml, if_neg hid, (tcpWriteChecks_ok_iff pcb _).mpr hallowed]
  simp only [hcuts.done]
  exact ⟨_, _, rfl, hcuts, rfl, rfl, rfl, Function.update_self _ _ _⟩

theorem toNat_sub_ofNat {n : Nat} {a : UInt16} (h : n ≤ a.toNat) :
    (a - UInt16.ofNat n).toNat + n = a.toNat := by
  have hlt := a.toNat_lt
  have hn : (UInt16.ofNat n).toNat = n := UInt16.toNat_ofNat_of_lt' (Nat.lt_of_le_of_lt h hlt)
  rw [UInt16.toNat_sub_of_le _ _ (by rw [UInt16.le_iff_toNat_le, hn]; exact h), hn]
  omega

theorem length_le_of_data {segs : List Seg} (hdata : segs.flatMap (·.payload) = arg) {seg : Seg}
    (hseg : seg ∈ segs) : seg.payload.length ≤ arg.length := by
  rw [← hdata, flatMap_def]
  exact (sublist_flatten_of_mem (mem_map_of_mem hseg)).length_le

/-- A write that returns `ERR_OK` got past the checks. -/
theorem allowed_of_ok {junk : Err} {t : Pcb}
    (h : tcpWriteNetml pcb arg remoteId isHot alloc junk = some (.ok, t)) :
    pcb.localId ≠ 0xffff ∧ Allowed pcb arg.length := by
  have hid : pcb.localId ≠ 0xffff := by
    intro hid
    rw [tcpWriteNetml, if_pos hid] at h
    cases h
  refine ⟨hid, (tcpWriteChecks_ok_iff pcb _).mp ?_⟩
  rw [tcpWriteNetml, if_neg hid] at h
  rcases hchecks : tcpWriteChecks pcb arg.length with _ | err
  · rw [hchecks] at h
    cases h
  · cases err with
    | ok => rfl
    | _ =>
      rw [hchecks] at h
      cases h

/-- The data is cut as it should be exactly if it may be written at all, the segment
size did not wrap around and a segment with its headers is not longer than 65535. -/
theorem written_iff (pcb : Pcb) (arg : List UInt8) (remoteId : Fin netmlMaxNode) (isHot : Bool)
    (junk : Err) (hpos : 0 < arg.length) (hlen : arg.length ≤ pcb.sndBuf.toNat)
    (hroomy : Roomy pcb arg.length) :
    (∃ t segs, tcpWriteNetml pcb arg remoteId isHot (fun _ => .ok) junk = some (.ok, t) ∧
        Written pcb arg remoteId isHot t segs) ↔
      pcb.localId ≠ 0xffff ∧ Writable pcb ∧ Consistent pcb ∧ ¬ Overlong pcb arg.length ∧
        min arg.length (maxLen pcb) + 32 < 2 ^ 16 := by
  have hmss := pcb.mss.toNat_lt
  have hbuf := pcb.sndBuf.toNat_lt
  constructor
  · rintro ⟨t, segs, hwrite, hwritten⟩
    obtain ⟨hid, hallowed⟩ := allowed_of_ok hwrite
    have hheader : ¬ addHeaderFails (min arg.length (maxLen pcb)) := by
      intro hfails
      have hstops : Stops pcb arg.length (fun _ => .ok) 0 := by
        refine ⟨hid, hallowed, by omega, by omega, ?_⟩
        exact fun hgoes => hgoes.2.2 (by simpa using hfails)
      cases hwrite.symm.trans (hstops.memerr remoteId isHot junk)
      obtain rfl : segs = [] := self_eq_append_right.mp hwritten.unsent
      exact absurd (congrArg length hwritten.data) (Nat.ne_of_lt hpos)
    obtain ⟨t', loop, hwrite', hcuts, hunsent, -⟩ :=
      tcpWriteNetml_cuts remoteId isHot (fun _ => rfl) junk hpos hallowed hroomy hid hheader
    cases hwrite.symm.trans hwrite'
    have hsegs : segs = loop.queue := append_cancel_left (hwritten.unsent.symm.trans hunsent)
    subst hsegs
    obtain ⟨seg, hseg, hlength⟩ := hcuts.head hpos
    have hsize := hwritten.size seg hseg
    change _ + 0 + 12 ≤ _ at hsize
    change ¬ 2 ^ 16 ≤ (0 + 12 + _) % 2 ^ 16 + 20 at hheader
    refine ⟨hid, hallowed.writable, hallowed.consistent hpos, ?_, by omega⟩
    rintro ⟨hlt, hlong⟩
    have hmax := maxLen_of_lt hlt
    change _ < _ + 0 + 12 at hlong
    omega
  · rintro ⟨hid, hwritable, hconsistent, hnot, hshort⟩
    have hroom := hroomy 0 (by omega)
    have hheader : ¬ addHeaderFails (min arg.length (maxLen pcb)) := by
      change ¬ 2 ^ 16 ≤ (0 + 12 + _) % 2 ^ 16 + 20
      omega
    obtain ⟨t, loop, hwrite, hcuts, hunsent, hlbb, hbuf, hworker⟩ :=
      tcpWriteNetml_cuts remoteId isHot (fun _ => rfl) junk hpos
        ⟨hwritable, fun _ => hlen, fun _ => by omega, fun _ => hconsistent⟩ hroomy hid hheader
    refine ⟨t, loop.queue, hwrite, ?_⟩
    have hdata : loop.queue.flatMap (·.payload) = arg := by simpa using hcuts.data
    constructor
    · exact hunsent
    · exact hcuts.filled
    · exact hdata
    · intro seg hseg
      change _ + 0 + 12 ≤ _
      have hsize := hcuts.size seg hseg
      have hall := length_le_of_data hdata hseg
      by_cases hlt : mssLocal pcb < optlen + internalHdrSize
      · have hfits : ¬ pcb.mss.toNat < arg.length + 0 + 12 := fun h => hnot ⟨hlt, h⟩
        omega
      · have hmax := maxLen_of_not_lt hlt
        have hmss := mssLocal_le pcb
        omega
    · simpa using hcuts.numbered
    · exact hlbb
    · rw [hbuf]
      exact toNat_sub_ofNat hlen
    · rw [hworker, hcuts.counters]
      rfl

end Segmentation

/-- A connection over which nothing has been written yet. -/
def opened (mss : UInt16) : Pcb where
  state := .established
  localId := 9
  mss := mss
  sndWndMax := 4000
  sndLbb := 0
  sndBuf := 4096
  sndQueuelen := 0
  internalConn := fun _ => ⟨1, 1⟩

def someNode : Fin netmlMaxNode := ⟨3, by decide⟩

theorem opened_written : 0 < [1, 2, 3, 4, 5, 6].length ∧ 6 ≤ (opened 16).sndBuf.toNat ∧
    Roomy (opened 16) 6 ∧
    ∃ t segs, tcpWriteNetml (opened 16) [1, 2, 3, 4, 5, 6] someNode false (fun _ => .ok) .ok =
      some (.ok, t) ∧ Written (opened 16) [1, 2, 3, 4, 5, 6] someNode false t segs := by
  have hmax : maxLen (opened 16) = 4 := by decide
  have hroomy : Roomy (opened 16) 6 := by
    intro turn hturn
    rw [hmax] at hturn
    change 0 + 2 * (turn + 1) ≤ 512
    omega
  refine ⟨by decide, by decide, hroomy, ?_⟩
  refine (written_iff _ _ _ _ _ (by decide) (by decide) hroomy).mpr
    ⟨by decide, .inl rfl, by decide, ?_, by decide⟩
  rintro ⟨hlt, -⟩
  exact absurd hlt (by decide)

/-- A segment size of 8 does not even hold the internal header. -/
theorem tiny_mss_overlong : 0 < ([1] : List UInt8).length ∧ 1 ≤ (opened 8).sndBuf.toNat ∧
    Roomy (opened 8) 1 ∧
    ¬ ∃ t segs, tcpWriteNetml (opened 8) [1] someNode false (fun _ => .ok) .ok = some (.ok, t) ∧
      Written (opened 8) [1] someNode false t segs := by
  have hmax : maxLen (opened 8) = 65532 := by decide
  refine ⟨by decide, by decide, ?_, ?_⟩
  · intro turn hturn
    rw [hmax] at hturn
    change 0 + 2 * (turn + 1) ≤ 512
    omega
  · rintro ⟨t, segs, -, hwritten⟩
    cases segs with
    | nil => exact absurd hwritten.data (by decide)
    | cons seg segs =>
      have hsize := hwritten.size seg mem_cons_self
      change _ + 0 + 12 ≤ 8 at hsize
      omega

/-- Queues and numbers are as before the call. -/
structure Untouched (pcb : Pcb) (remoteId : Fin netmlMaxNode) (t : Pcb) : Prop where
  unsent : t.unsent = pcb.unsent
  unacked : t.unacked = pcb.unacked
  sndLbb : t.sndLbb = pcb.sndLbb
  sndBuf : t.sndBuf = pcb.sndBuf
  sndQueuelen : t.sndQueuelen = pcb.sndQueuelen
  worker : t.internalConn remoteId = pcb.internalConn remoteId

theorem advance_eq_self_iff (isHot : Bool) (worker : Worker) {n : Nat} (hn : n < 2 ^ 32) :
    worker.advance isHot n = worker ↔ n = 0 := by
  constructor
  · intro h
    have hseq : worker.intseq + UInt32.ofNat n = worker.intseq := congrArg Worker.intseq h
    have hnat := congrArg UInt32.toNat hseq
    rw [UInt32.toNat_add, UInt32.toNat_ofNat'] at hnat
    omega
  · rintro rfl
    exact advance_zero worker

/-- Wherever a write fails, the caller is not told so, since what is returned is left to
chance. The queues are as before, the counters exactly if no byte has been numbered. -/
theorem failure_untold (pcb : Pcb) (arg : List UInt8) (remoteId : Fin netmlMaxNode) (isHot : Bool)
    (alloc : Nat → Alloc) (turn : Nat) (hstops : Stops pcb arg.length alloc turn) :
    (¬ ∀ junk, ∃ err t, tcpWriteNetml pcb arg remoteId isHot alloc junk = some (err, t) ∧
        err ≠ .ok ∧ Untouched pcb remoteId t) ∧
      ∀ junk, ∃ t, tcpWriteNetml pcb arg remoteId isHot alloc junk = some (junk, t) ∧
        (Untouched pcb remoteId t ↔ turn = 0 ∨ maxLen pcb = 0) := by
  have hsmall : turn * maxLen pcb < 2 ^ 32 := by
    have hlt := pcb.sndBuf.toNat_lt
    have hreached := hstops.reached
    have hlen := hstops.allowed.fits (Nat.zero_lt_of_lt hreached)
    omega
  constructor
  · intro hall
    obtain ⟨err, t, hwrite, herr, -⟩ := hall .ok
    rw [hstops.memerr remoteId isHot] at hwrite
    obtain ⟨rfl, -⟩ := Prod.mk.inj (Option.some.inj hwrite)
    exact herr rfl
  · intro junk
    refine ⟨_, hstops.memerr remoteId isHot junk, ?_⟩
    rw [← Nat.mul_eq_zero, ← advance_eq_self_iff isHot (pcb.internalConn remoteId) hsmall]
    constructor
    · intro huntouched
      simpa [setWorker] using huntouched.worker
    · intro hworker
      refine ⟨rfl, rfl, rfl, rfl, rfl, ?_⟩
      simpa [setWorker] using hworker

/-- No memory for the second segment. -/
def secondFails (turn : Nat) : Alloc := if turn = 0 then .ok else .noData

theorem secondFails_stops : Stops (opened 16) 6 secondFails 1 := by
  constructor
  · decide
  · exact (tcpWriteChecks_ok_iff _ _).mp (by decide)
  · decide
  · intro k hk
    obtain rfl := Nat.lt_one_iff.mp hk
    exact ⟨rfl, by decide, by decide⟩
  · rintro ⟨halloc, -⟩
    cases halloc

theorem secondFails_untold : Stops (opened 16) 6 secondFails 1 ∧
    ¬ ∀ junk, ∃ err t,
      tcpWriteNetml (opened 16) [1, 2, 3, 4, 5, 6] someNode false secondFails junk =
      some (err, t) ∧ err ≠ .ok ∧ Untouched (opened 16) someNode t :=
  ⟨secondFails_stops,
    (failure_untold (opened 16) [1, 2, 3, 4, 5, 6] someNode false _ 1 secondFails_stops).1⟩

/-- The numbers of the first segment are used up, even if the caller gets an error. -/
theorem second_touched :
    ¬ ∃ err t, tcpWriteNetml (opened 16) [1, 2, 3, 4, 5, 6] someNode false secondFails .mem =
      some (err, t) ∧ err ≠ .ok ∧ Untouched (opened 16) someNode t := by
  rintro ⟨err, t, heq, -, huntouched⟩
  obtain ⟨-, rfl⟩ := Prod.mk.inj (Option.some.inj heq)
  exact absurd huntouched.worker (by decide)

end Uzmq.NetmlWrite
