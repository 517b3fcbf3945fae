import Uzmq.NetmlWrite

/-!
# Writing data through a netconn

`lwip_netconn_do_writemore` for a request of `netconn_write_netml`: one vector of
data, written in pieces of at most 65535 bytes for which there is room in `snd_buf`.
What a caller without data of this kind gets, `tcp_write`, is not the subject here,
nor are the events for `select`; send timeouts are switched off.
-/

namespace Uzmq.NetconnWrite

open NetmlWrite

def tcpSndBuf : UInt16 := 4096

structure Request where
  data : List UInt8
  remoteId : Fin netmlMaxNode
  isHot : Bool
  dontblock : Bool

/-- What the calls made for a request meet: the allocations and the value returned by
chance of every call of `tcp_write_netml`, and the error of `tcp_output`. -/
structure Env where
  alloc : Nat → Nat → Alloc
  junk : Nat → Err
  outErr : Err

structure Writing where
  err : Err
  offset : Nat
  pcb : Pcb

/-- The loop, with the number of calls made so far and the bytes that are written. The
fork gives up a request without blocking also if a part of it could be written. -/
def writeLoop (req : Request) (env : Env) : Nat → Nat → Nat → Pcb → Option Writing
  | 0, _, _, _ => none
  | fuel + 1, n, offset, pcb =>
    let diff := req.data.length - offset
    let len := min diff 0xffff
    let available := pcb.sndBuf.toNat
    if available < len ∧ req.dontblock then
      some ⟨if offset = 0 then .wouldblock else .ok, offset, pcb⟩
    else
      let len := min len available
      let writeMore := len = 0xffff ∧ 0xffff < diff
      match tcpWriteNetml pcb ((req.data.drop offset).take len) req.remoteId req.isHot
          (env.alloc n) (env.junk n) with
      | none => none
      | some (.ok, pcb) =>
        if writeMore then writeLoop req env fuel (n + 1) (offset + len) pcb
        else some ⟨.ok, offset + len, pcb⟩
      | some (err, pcb) => some ⟨err, offset, pcb⟩

/-- `finished` tells whether the caller is released; `pcb` is as before `tcp_output`. -/
structure Outcome where
  err : Err
  offset : Nat
  finished : Bool
  pcb : Pcb

/-- What follows the loop. -/
def finish (req : Request) (env : Env) (w : Writing) : Outcome :=
  match w.err with
  | .ok =>
    if env.outErr = .rte then ⟨.rte, w.offset, true, w.pcb⟩
    else ⟨.ok, w.offset, w.offset = req.data.length || req.dontblock, w.pcb⟩
  | .mem =>
    if env.outErr = .rte then ⟨.rte, w.offset, true, w.pcb⟩
    else if req.dontblock then
      ⟨if w.offset = 0 then .wouldblock else .ok, w.offset, true, w.pcb⟩
    else ⟨.mem, w.offset, false, w.pcb⟩
  | err => ⟨err, w.offset, true, w.pcb⟩

def doWritemore (req : Request) (env : Env) (pcb : Pcb) : Option Outcome :=
  (writeLoop req env req.data.length 0 0 pcb).map (finish req env)

/-- An established connection with nothing queued. -/
structure Idle (pcb : Pcb) : Prop where
  state : pcb.state = .established
  unsent : pcb.unsent = []
  unacked : pcb.unacked = []
  sndBuf : pcb.sndBuf = tcpSndBuf
  sndQueuelen : pcb.sndQueuelen = 0

/-- The request ended after a part of its data had been accepted, which is in the queue. -/
def Progresses (req : Request) (outcome : Option Outcome) : Prop :=
  ∃ o, outcome = some o ∧ 0 < o.offset ∧
    o.pcb.unsent.flatMap (·.payload) = req.data.take o.offset

section Idle
variable {pcb : Pcb} {req : Request} {env : Env}

theorem Idle.sndBuf_toNat (h : Idle pcb) : pcb.sndBuf.toNat = 4096 := by
  rw [h.sndBuf]
  rfl

/-- A request that is too long for the whole buffer is given up at once. -/
theorem doWritemore_long (hidle : Idle pcb) (hblock : req.dontblock = true)
    (hlong : 4096 < req.data.length) :
    doWritemore req env pcb = some ⟨.wouldblock, 0, true, pcb⟩ := by
  obtain ⟨fuel, hfuel⟩ := Nat.exists_eq_succ_of_ne_zero (Nat.ne_of_gt (Nat.zero_lt_of_lt hlong))
  have hfull : pcb.sndBuf.toNat < min (req.data.length - 0) 0xffff ∧ req.dontblock = true := by
    rw [hidle.sndBuf_toNat]
    exact ⟨by omega, hblock⟩
  rw [doWritemore, hfuel, writeLoop]
  simp only [if_pos hfull]
  rfl

theorem doWritemore_short (hidle : Idle pcb) (hpos : 0 < req.data.length)
    (hshort : req.data.length ≤ 4096) {err : Err} {t : Pcb}
    (hwrite : tcpWriteNetml pcb req.data req.remoteId req.isHot (env.alloc 0) (env.junk 0) =
      some (err, t)) :
    doWritemore req env pcb =
      some (finish req env ⟨err, if err = .ok then req.data.length else 0, t⟩) := by
  have hbuf := hidle.sndBuf_toNat
  have hroom : ¬ (pcb.sndBuf.toNat < min (req.data.length - 0) 0xffff ∧ req.dontblock = true) := by
    rintro ⟨hlt, -⟩
    omega
  have hlen : min (min (req.data.length - 0) 0xffff) pcb.sndBuf.toNat = req.data.length := by
    omega
  have hmore : ¬ (req.data.length = 0xffff ∧ 0xffff < req.data.length - 0) := by omega
  have hloop (fuel : Nat) : writeLoop req env (fuel + 1) 0 0 pcb =
      some ⟨err, if err = .ok then req.data.length else 0, t⟩ := by
    rw [writeLoop]
    simp only [if_neg hroom, hlen, List.drop_zero, List.take_length, hwrite]
    cases err with
    | ok => simp only [if_neg hmore, Nat.zero_add, if_true]
    | _ => rfl
  have hfirst := hloop (req.data.length - 1)
  rw [Nat.sub_add_cancel hpos] at hfirst
  rw [doWritemore, hfirst]
  rfl

theorem Idle.allowed (hidle : Idle pcb) (hshort : req.data.length ≤ 4096) :
    Allowed pcb req.data.length := by
  refine ⟨.inl hidle.state, fun _ => ?_, fun _ => ?_, fun _ => ?_⟩
  · rw [hidle.sndBuf_toNat]
    exact hshort
  · rw [hidle.sndQueuelen]
    decide
  · simp [Consistent, hidle.sndQueuelen, hidle.unsent, hidle.unacked]

/-- If there is no room for all segments in the queue, there is a turn in which the
loop stops. -/
theorem stops_of_not_roomy (hidle : Idle pcb)
    (hshort : req.data.length ≤ 4096) (hknown : pcb.localId ≠ 0xffff)
    (alloc : Nat → Alloc) (hnot : ¬ Roomy pcb req.data.length) :
    ∃ turn, Stops pcb req.data.length alloc turn := by
  have hex : ∃ turn, turn * maxLen pcb < req.data.length ∧
      ¬ Goes pcb req.data.length alloc 0 0 pcb.sndQueuelen.toNat turn := by
    by_contra hall
    refine hnot fun turn hturn => ?_
    by_contra hfull
    exact hall ⟨turn, hturn, fun hgoes => hfull hgoes.2.1⟩
  classical
  obtain ⟨hreached, hfull⟩ := Nat.find_spec hex
  refine ⟨Nat.find hex, hknown, hidle.allowed hshort, hreached, ?_, hfull⟩
  intro k hk
  by_contra hover
  have hle : k * maxLen pcb ≤ Nat.find hex * maxLen pcb :=
    Nat.mul_le_mul_right _ (Nat.le_of_lt hk)
  exact Nat.find_min hex hk ⟨Nat.lt_of_le_of_lt hle hreached, hover⟩

theorem finish_frame (req : Request) (env : Env) (w : Writing) :
    (finish req env w).offset = w.offset ∧ (finish req env w).pcb = w.pcb := by
  unfold finish
  split
  · split <;> exact ⟨rfl, rfl⟩
  · split
    · exact ⟨rfl, rfl⟩
    · split <;> exact ⟨rfl, rfl⟩
  · exact ⟨rfl, rfl⟩

theorem progresses_finish_iff (hpos : 0 < req.data.length) {err : Err} {t : Pcb} :
    Progresses req (some (finish req env ⟨err, if err = .ok then req.data.length else 0, t⟩)) ↔
      err = .ok ∧ t.unsent.flatMap (·.payload) = req.data := by
  obtain ⟨hoffset, hpcb⟩ := finish_frame req env ⟨err, if err = .ok then req.data.length else 0, t⟩
  constructor
  · rintro ⟨_, ⟨⟩, haccepted, hdata⟩
    rw [hoffset] at haccepted hdata
    rw [hpcb] at hdata
    by_cases herr : err = .ok
    · exact ⟨herr, by simpa [herr] using hdata⟩
    · simp [herr] at haccepted
  · rintro ⟨rfl, hdata⟩
    exact ⟨_, rfl, by rw [hoffset]; exact hpos, by rw [hoffset, hpcb]; simpa using hdata⟩

/-- A write over an idle connection makes progress exactly if the id of the node is known, the
whole request has room in the send buffer and its segments have in the queue. -/
theorem progresses_iff (pcb : Pcb) (req : Request) (env : Env) (hidle : Idle pcb)
    (hblock : req.dontblock = true) (hpos : 0 < req.data.length)
    (halloc : ∀ n k, env.alloc n k = .ok) :
    Progresses req (doWritemore req env pcb) ↔
      req.data.length ≤ tcpSndBuf.toNat ∧ pcb.localId ≠ 0xffff ∧ Roomy pcb req.data.length := by
  change _ ↔ req.data.length ≤ 4096 ∧ _
  by_cases hshort : req.data.length ≤ 4096
  · by_cases hknown : pcb.localId = 0xffff
    · have hwrite : tcpWriteNetml pcb req.data req.remoteId req.isHot (env.alloc 0) (env.junk 0) =
          some (.val, pcb) := if_pos hknown
      rw [doWritemore_short hidle hpos hshort hwrite, progresses_finish_iff hpos]
      simp [hknown]
    · by_cases hroomy : Roomy pcb req.data.length
      · have hheader : ¬ addHeaderFails (min req.data.length (maxLen pcb)) := by
          change ¬ 2 ^ 16 ≤ (0 + 12 + _) % 2 ^ 16 + 20
          omega
        obtain ⟨t, loop, hwrite, hcuts, hunsent, -⟩ := tcpWriteNetml_cuts req.remoteId req.isHot
          (halloc 0) (env.junk 0) hpos (hidle.allowed hshort) hroomy hknown hheader
        have hdata : t.unsent.flatMap (·.payload) = req.data := by
          rw [hunsent, hidle.unsent]
          simpa using hcuts.data
        rw [doWritemore_short hidle hpos hshort hwrite, progresses_finish_iff hpos]
        simp [hshort, hknown, hroomy, hdata]
      · -- Nothing is queued, even if the request is reported as written.
        obtain ⟨turn, hstops⟩ := stops_of_not_roomy hidle hshort hknown (env.alloc 0) hroomy
        have hnil : req.data ≠ [] := List.ne_nil_of_length_pos hpos
        rw [doWritemore_short hidle hpos hshort (hstops.memerr _ _ _), progresses_finish_iff hpos]
        simp [setWorker, hidle.unsent, hroomy, hnil.symm]
  · rw [doWritemore_long hidle hblock (Nat.not_le.mp hshort)]
    simp [Progresses, hshort]

end Idle

def plenty : Env where
  alloc := fun _ _ => .ok
  junk := fun _ => .mem
  outErr := .ok

theorem opened_idle (mss : UInt16) : Idle (opened mss) := by constructor <;> rfl

def threeBytes : Request := ⟨[1, 2, 3], someNode, false, true⟩

theorem short_progresses : Idle (opened 1000) ∧
    Progresses threeBytes (doWritemore threeBytes plenty (opened 1000)) := by
  refine ⟨opened_idle 1000, (progresses_iff _ _ _ (opened_idle 1000) rfl (by decide)
    fun _ _ => rfl).mpr ⟨by decide, by decide, ?_⟩⟩
  intro turn hturn
  change turn * 988 < 3 at hturn
  change 0 + 2 * (turn + 1) ≤ 512
  omega

def longRequest : Request := ⟨List.replicate 4097 0, someNode, false, true⟩

/-- A request of one byte more than the send buffer blocks although the buffer is empty. -/
theorem long_starves : Idle (opened 1000) ∧
    doWritemore longRequest plenty (opened 1000) = some ⟨.wouldblock, 0, true, opened 1000⟩ ∧
    ¬ Progresses longRequest (doWritemore longRequest plenty (opened 1000)) := by
  have hlong : doWritemore longRequest plenty (opened 1000) =
      some ⟨.wouldblock, 0, true, opened 1000⟩ :=
    doWritemore_long (opened_idle 1000) rfl (by rw [longRequest, List.length_replicate]; decide)
  refine ⟨opened_idle 1000, hlong, ?_⟩
  rw [hlong]
  rintro ⟨o, ⟨⟩, hpos, -⟩
  cases hpos

end Uzmq.NetconnWrite
