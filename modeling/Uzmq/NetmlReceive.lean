import Uzmq.Runs

/-!
# Receiving NetML data segments

`tcp_netml_input` and the data branch of `tcp_receive_data` for one connection.
A segment arrives in a packet whose headers stay in memory as they came, in
network byte order; `tcp_netml_input` converts the node ids in place but not the
tunnel number, of which it keeps a converted copy. The host is little-endian.

A queued segment (`tcp_seg`) is a view of its packet, so the out-of-order list is
a list of packets. The position of a payload in the stream of its source is not
part of a packet; it is recorded to say which arrivals are copies of one segment.
-/

namespace Uzmq.NetmlReceive

open List

def netmlMaxNode : Nat := 128

/-- Byte swap of a 32-bit word. -/
def htonl (word : Nat) : Nat :=
  word % 2 ^ 8 * 2 ^ 24 + word / 2 ^ 8 % 2 ^ 8 * 2 ^ 16 + word / 2 ^ 16 % 2 ^ 8 * 2 ^ 8 +
    word / 2 ^ 24 % 2 ^ 8

def ntohl (word : Nat) : Nat := htonl word

theorem htonl_of_bytes {a b c d : Nat} (ha : a < 2 ^ 8) (hb : b < 2 ^ 8) (hc : c < 2 ^ 8)
    (hd : d < 2 ^ 8) :
    htonl (a * 2 ^ 24 + b * 2 ^ 16 + c * 2 ^ 8 + d) = d * 2 ^ 24 + c * 2 ^ 16 + b * 2 ^ 8 + a := by
  have h0 : (a * 2 ^ 24 + b * 2 ^ 16 + c * 2 ^ 8 + d) % 2 ^ 8 = d := by omega
  have h1 : (a * 2 ^ 24 + b * 2 ^ 16 + c * 2 ^ 8 + d) / 2 ^ 8 % 2 ^ 8 = c := by omega
  have h2 : (a * 2 ^ 24 + b * 2 ^ 16 + c * 2 ^ 8 + d) / 2 ^ 16 % 2 ^ 8 = b := by omega
  have h3 : (a * 2 ^ 24 + b * 2 ^ 16 + c * 2 ^ 8 + d) / 2 ^ 24 % 2 ^ 8 = a := by omega
  rw [htonl, h0, h1, h2, h3]

theorem exists_bytes {word : Nat} (h : word < 2 ^ 32) :
    ∃ a b c d, a < 2 ^ 8 ∧ b < 2 ^ 8 ∧ c < 2 ^ 8 ∧ d < 2 ^ 8 ∧
      word = a * 2 ^ 24 + b * 2 ^ 16 + c * 2 ^ 8 + d :=
  ⟨word / 2 ^ 24, word / 2 ^ 16 % 2 ^ 8, word / 2 ^ 8 % 2 ^ 8, word % 2 ^ 8,
    by omega, by omega, by omega, by omega, by omega⟩

theorem ntohl_htonl {word : Nat} (h : word < 2 ^ 32) : ntohl (htonl word) = word := by
  obtain ⟨a, b, c, d, ha, hb, hc, hd, rfl⟩ := exists_bytes h
  rw [ntohl, htonl_of_bytes ha hb hc hd, htonl_of_bytes hd hc hb ha]

/-- The low four bits of the header length byte. -/
inductive NetmlFlags where
  | bypass
  | ctl
  | ctlSw
  | cold
  | coldRe
  | hot
  | hotRe
  | aggAck
  | agg
  deriving DecidableEq, Repr

/-- A packet: the fields of the TCP header and of `internal_hdr` that are read,
`intTunlno` as it lies in memory, and the payload, whose length is a `u16_t`. -/
structure Packet where
  seqno : Nat := 0
  ack : Bool := false
  offsetFlags : NetmlFlags := .cold
  dstId : Nat := 0
  srcId : Nat
  intSeqno : Nat := 0
  intTunlno : Nat
  payload : List UInt8
  position : Nat
  length_lt : payload.length < 2 ^ 16 := by decide
  deriving DecidableEq, Repr

def Packet.len (p : Packet) : Nat := p.payload.length

def Packet.internaltunl (p : Packet) : Nat := ntohl p.intTunlno

/-- State kept per source node. -/
structure TcpInternalId where
  nxtwish : Nat := 1
  intack : Nat := 1
  inttunl : Nat := 1
  inid : Nat
  ooseq : List Packet := []
  deriving DecidableEq, Repr

/-- The `while` loop that passes up the head of the out-of-order list as long as
its stored number is `wanted`, a `u16_t`. Returns the last `wanted`, the rest of the
list and the packets passed up. -/
def chain (wanted : Nat) : List Packet → List Packet → Nat × List Packet × List Packet
  | [], recvData => (wanted, [], recvData)
  | cseg :: rest, recvData =>
    if cseg.intTunlno = wanted then
      chain (if cseg.offsetFlags = .agg then cseg.intTunlno % 2 ^ 16
        else (cseg.intTunlno + cseg.len) % 2 ^ 16) rest (recvData ++ [cseg])
    else (wanted, cseg :: rest, recvData)

/-- Insert behind the segments whose stored number is not above the converted one
of the arrived segment. `copy` is the result of `tcp_seg_copy`; the result is
`none` when its null pointer is dereferenced. -/
def insertOoseq (internaltunl : Nat) (copy : Option Packet) (ooseq : List Packet) :
    Option (List Packet) :=
  match ooseq with
  | [] => some copy.toList
  | _ =>
    let passed := ooseq.takeWhile (fun cseg => cseg.intTunlno ≤ internaltunl)
    match ooseq.dropWhile (fun cseg => cseg.intTunlno ≤ internaltunl), copy with
    | [], copy => some (passed ++ copy.toList)
    -- At the head and in the middle alike the copy's `next` is set.
    | _ :: _, none => none
    | cseg :: rest, some copy => some (passed ++ copy :: cseg :: rest)

/-- The data branch of `tcp_receive_data`, up to the acknowledgement: the new
state of the source and the packets in `recv_data`. -/
def receiveData (worker : TcpInternalId) (inseg : Packet) (copyOk : Bool) :
    Option (TcpInternalId × List Packet) :=
  let copy := if copyOk then some inseg else none
  if worker.nxtwish = inseg.internaltunl then
    if worker.ooseq = [] then
      let nxtwish := if inseg.offsetFlags = .agg then inseg.internaltunl
        else (inseg.internaltunl + inseg.len) % 2 ^ 32
      some ({ worker with nxtwish := nxtwish }, [inseg])
    else
      match copy with
      | none => none
      | some next =>
        let (wanted, ooseq, recvData) := chain (next.intTunlno % 2 ^ 16) (next :: worker.ooseq) []
        some ({ worker with nxtwish := wanted, ooseq := ooseq }, recvData)
  else if worker.nxtwish < inseg.internaltunl then
    (insertOoseq inseg.internaltunl copy worker.ooseq).map
      fun ooseq => ({ worker with ooseq := ooseq }, [])
  else some (worker, [])

structure Ack where
  ackno : Nat
  intSeqno : Nat
  intTunlno : Nat
  dstId : Nat
  srcId : Nat
  offsetFlags : NetmlFlags
  deriving DecidableEq, Repr

/-- The part of the connection that receiving reads and writes. `received` is what
was passed to the application, `acks` which packet was acknowledged how; `crashed`
says that a null pointer was dereferenced. -/
structure Pcb where
  localId : Nat
  rcvNxt : Nat
  internalConn : Nat → TcpInternalId
  received : List Packet := []
  acks : List (Packet × Ack) := []
  crashed : Bool := false

def Pcb.setConn (pcb : Pcb) (index : Nat) (worker : TcpInternalId) : Nat → TcpInternalId :=
  fun i => if i = index then worker else pcb.internalConn i

def tcpSendEmptyAckNetml (pcb : Pcb) (worker : TcpInternalId) (isAgg : Bool) : Ack where
  ackno := htonl pcb.rcvNxt
  intSeqno := htonl worker.intack
  intTunlno := htonl worker.inttunl
  dstId := worker.inid
  srcId := pcb.localId
  offsetFlags := if isAgg then .aggAck else .cold

def Pcb.new (rcvNxt : Nat) : Pcb where
  localId := 2 ^ 16 - 1
  rcvNxt := rcvNxt
  internalConn := fun index => { inid := index + 8 }

/-- An arriving packet and whether `memp_malloc` has room for a segment. -/
structure Arrival where
  packet : Packet
  copyOk : Bool := true
  deriving DecidableEq, Repr

/-- `tcp_netml_input` after the connection has been found, with an application
that takes all data. An acknowledgement only concerns the sending side. -/
def tcpNetmlInput (pcb : Pcb) (arrival : Arrival) : Pcb :=
  let p := arrival.packet
  let pcb := { pcb with localId := if pcb.localId = 2 ^ 16 - 1 then p.dstId else pcb.localId }
  if p.ack then pcb
  else
    let index := p.srcId - 8
    match receiveData (pcb.internalConn index) p arrival.copyOk with
    | none => { pcb with crashed := true }
    | some (worker, recvData) =>
      let worker := { worker with intack := (p.intSeqno + p.len) % 2 ^ 32 }
      let pcb := { pcb with
        rcvNxt := (p.seqno + p.len) % 2 ^ 32
        internalConn := pcb.setConn index worker
        received := pcb.received ++ recvData }
      let ack := tcpSendEmptyAckNetml pcb worker (p.offsetFlags = .agg)
      { pcb with acks := pcb.acks ++ [(p, ack)] }

/-- The code indexes `internal_conn` with the source id unchecked; arrivals with
an id outside of the array are not considered. -/
def step (pcb : Pcb) (arrival : Arrival) : Option Pcb :=
  if pcb.crashed = false ∧ 8 ≤ arrival.packet.srcId ∧ arrival.packet.srcId < 8 + netmlMaxNode then
    some (tcpNetmlInput pcb arrival)
  else none

def Pcb.worker (pcb : Pcb) (source : Nat) : TcpInternalId := pcb.internalConn (source - 8)

/-- Every data packet that is processed to the end is acknowledged, so the log of
the acknowledgements lists the arrivals. -/
def Pcb.arrived (pcb : Pcb) : List Packet := pcb.acks.map Prod.fst

/-- The data passed upward for a source. -/
def Pcb.dataFor (pcb : Pcb) (source : Nat) : List UInt8 :=
  ((pcb.received.filter (·.srcId = source)).map Packet.payload).flatten

/-- The chain takes packets from the front of the list and keeps their order. -/
theorem chain_append (wanted : Nat) (ooseq recvData : List Packet) :
    (chain wanted ooseq recvData).2.2 ++ (chain wanted ooseq recvData).2.1 = recvData ++ ooseq := by
  induction ooseq generalizing wanted recvData with
  | nil => rfl
  | cons cseg rest ih =>
    by_cases h : cseg.intTunlno = wanted
    · rw [chain, if_pos h, ih]
      simp
    · rw [chain, if_neg h]

theorem mem_chain {first wanted : Nat} {ooseq rest recvData : List Packet}
    (h : chain first ooseq [] = (wanted, rest, recvData)) (q : Packet) :
    q ∈ ooseq ↔ q ∈ recvData ∨ q ∈ rest := by
  have hall := chain_append first ooseq []
  rw [h, nil_append] at hall
  rw [← hall, mem_append]

/-- The arrived segment would be linked behind all queued ones. -/
def atEnd (internaltunl : Nat) (ooseq : List Packet) : Prop :=
  ∀ cseg ∈ ooseq, cseg.intTunlno ≤ internaltunl
  deriving Decidable

/-- With a copy the list grows by it; without one it stays as it is when the place
is the end, and the null pointer is dereferenced otherwise. -/
theorem insertOoseq_some (internaltunl : Nat) (copy : Packet) (ooseq : List Packet) :
    ∃ before after, ooseq = before ++ after ∧
      insertOoseq internaltunl (some copy) ooseq = some (before ++ copy :: after) := by
  cases ooseq with
  | nil => exact ⟨[], [], rfl, rfl⟩
  | cons head tail =>
    refine ⟨(head :: tail).takeWhile (fun cseg => cseg.intTunlno ≤ internaltunl),
      (head :: tail).dropWhile (fun cseg => cseg.intTunlno ≤ internaltunl),
      takeWhile_append_dropWhile.symm, ?_⟩
    simp only [insertOoseq]
    split
    · rename_i hdrop
      rw [hdrop]
      rfl
    · rename_i hnone
      cases hnone
    · rename_i hdrop hcopy
      cases hcopy
      rw [hdrop]

theorem insertOoseq_none (internaltunl : Nat) (ooseq : List Packet) :
    insertOoseq internaltunl none ooseq =
      if atEnd internaltunl ooseq then some ooseq else none := by
  cases ooseq with
  | nil => rfl
  | cons head tail =>
    have hsplit := @List.takeWhile_append_dropWhile _
      (fun cseg : Packet => decide (cseg.intTunlno ≤ internaltunl)) (head :: tail)
    simp only [insertOoseq]
    split
    · rename_i hdrop
      have hall : atEnd internaltunl (head :: tail) := by
        intro cseg hmem
        simpa using dropWhile_eq_nil_iff.mp hdrop cseg hmem
      rw [hdrop, append_nil] at hsplit
      rw [if_pos hall, hsplit]
      simp
    · rename_i cseg rest hdrop _
      have hnot : ¬ atEnd internaltunl (head :: tail) := by
        intro hall
        have hnil := dropWhile_eq_nil_iff.mpr
          (fun q hq => by simpa using hall q hq :
            ∀ q ∈ head :: tail, decide (q.intTunlno ≤ internaltunl) = true)
        rw [hnil] at hdrop
        cases hdrop
      rw [if_neg hnot]
    · rename_i hcopy
      cases hcopy

/-- What the data branch does with a segment: pass it up, pass it up with what it
chains to, queue it, lose it, take it for an old one, or crash. -/
inductive Outcome (worker : TcpInternalId) (inseg : Packet) :
    Bool → Option (TcpInternalId × List Packet) → Prop where
  | inOrder {copyOk : Bool} (wish : worker.nxtwish = inseg.internaltunl)
      (empty : worker.ooseq = []) :
      Outcome worker inseg copyOk (some ({ worker with
        nxtwish := if inseg.offsetFlags = .agg then inseg.internaltunl
          else (inseg.internaltunl + inseg.len) % 2 ^ 32 }, [inseg]))
  | chained {wanted : Nat} {ooseq recvData : List Packet}
      (wish : worker.nxtwish = inseg.internaltunl) (queued : worker.ooseq ≠ [])
      (result : chain (inseg.intTunlno % 2 ^ 16) (inseg :: worker.ooseq) [] =
        (wanted, ooseq, recvData)) :
      Outcome worker inseg true (some ({ worker with nxtwish := wanted, ooseq := ooseq }, recvData))
  | queued {before after : List Packet} (ahead : worker.nxtwish < inseg.internaltunl)
      (split : worker.ooseq = before ++ after) :
      Outcome worker inseg true (some ({ worker with ooseq := before ++ inseg :: after }, []))
  | lost (ahead : worker.nxtwish < inseg.internaltunl)
      (last : atEnd inseg.internaltunl worker.ooseq) :
      Outcome worker inseg false (some (worker, []))
  | old {copyOk : Bool} (behind : inseg.internaltunl < worker.nxtwish) :
      Outcome worker inseg copyOk (some (worker, []))
  | crash : Outcome worker inseg false none

theorem receiveData_outcome (worker : TcpInternalId) (inseg : Packet) (copyOk : Bool) :
    Outcome worker inseg copyOk (receiveData worker inseg copyOk) := by
  rcases Nat.lt_trichotomy worker.nxtwish inseg.internaltunl with ahead | wish | behind
  · have hne : worker.nxtwish ≠ inseg.internaltunl := Nat.ne_of_lt ahead
    cases copyOk with
    | true =>
      obtain ⟨before, after, hsplit, hinsert⟩ :=
        insertOoseq_some inseg.internaltunl inseg worker.ooseq
      have h := Outcome.queued ahead hsplit
      simpa [receiveData, hne, ahead, hinsert] using h
    | false =>
      by_cases hend : atEnd inseg.internaltunl worker.ooseq
      · have h := Outcome.lost ahead hend
        simpa [receiveData, hne, ahead, insertOoseq_none, hend] using h
      · simpa [receiveData, hne, ahead, insertOoseq_none, hend] using Outcome.crash
  · by_cases hempty : worker.ooseq = []
    · have h := @Outcome.inOrder worker inseg copyOk wish hempty
      simpa [receiveData, wish, hempty] using h
    cases copyOk with
    | true =>
      obtain ⟨wanted, ooseq, recvData, hchain⟩ : ∃ wanted ooseq recvData,
          chain (inseg.intTunlno % 2 ^ 16) (inseg :: worker.ooseq) [] =
            (wanted, ooseq, recvData) := ⟨_, _, _, rfl⟩
      have h := Outcome.chained wish hempty hchain
      simpa only [receiveData, wish, if_true, hempty, if_false, hchain] using h
    | false =>
      simpa [receiveData, wish, hempty] using Outcome.crash
  · have hne : worker.nxtwish ≠ inseg.internaltunl := Nat.ne_of_gt behind
    have hlt : ¬ worker.nxtwish < inseg.internaltunl := Nat.lt_asymm behind
    have h := @Outcome.old worker inseg copyOk behind
    simpa [receiveData, hne, hlt] using h

section Outcomes
variable {worker worker' : TcpInternalId} {inseg : Packet} {copyOk : Bool} {recvData : List Packet}

section
variable (h : Outcome worker inseg copyOk (some (worker', recvData)))
include h

theorem Outcome.mem_or_mem {q : Packet} (hq : q ∈ recvData ∨ q ∈ worker'.ooseq) :
    q = inseg ∨ q ∈ worker.ooseq := by
  cases h with
  | inOrder wish empty => simpa [empty] using hq
  | chained wish queued result =>
    exact mem_cons.mp ((mem_chain result q).mpr hq)
  | queued ahead split =>
    rw [split]
    have := hq.resolve_left not_mem_nil
    simp only [mem_append, mem_cons] at this ⊢
    tauto
  | lost | old => exact Or.inr (hq.resolve_left not_mem_nil)

theorem Outcome.mem_of_queued {q : Packet} (hq : q ∈ worker.ooseq) :
    q ∈ recvData ∨ q ∈ worker'.ooseq := by
  cases h with
  | inOrder wish empty =>
    rw [empty] at hq
    cases hq
  | chained wish queued result =>
    exact (mem_chain result q).mp (mem_cons_of_mem _ hq)
  | queued ahead split =>
    rw [split] at hq
    simp only [mem_append, mem_cons] at hq ⊢
    tauto
  | lost | old => exact Or.inr hq

end

end Outcomes

/-- A data packet has been processed to the end. -/
structure Processed (pcb : Pcb) (arrival : Arrival) (worker : TcpInternalId)
    (recvData : List Packet) (t : Pcb) : Prop where
  outcome : Outcome (pcb.worker arrival.packet.srcId) arrival.packet arrival.copyOk
    (some (worker, recvData))
  received : t.received = pcb.received ++ recvData
  nxtwish : (t.worker arrival.packet.srcId).nxtwish = worker.nxtwish
  ooseq : (t.worker arrival.packet.srcId).ooseq = worker.ooseq
  others : ∀ source, 8 ≤ source → source ≠ arrival.packet.srcId →
    t.worker source = pcb.worker source
  arrived : t.arrived = pcb.arrived ++ [arrival.packet]

/-- A step leaves the receiving side alone or processes a data packet. -/
inductive Turn (pcb : Pcb) (arrival : Arrival) (t : Pcb) : Prop where
  | skipped (why : arrival.packet.ack = true ∨ arrival.copyOk = false)
      (workers : t.internalConn = pcb.internalConn)
      (received : t.received = pcb.received) (acks : t.acks = pcb.acks) : Turn pcb arrival t
  | processed {worker : TcpInternalId} {recvData : List Packet}
      (data : arrival.packet.ack = false) (source : 8 ≤ arrival.packet.srcId)
      (h : Processed pcb arrival worker recvData t) : Turn pcb arrival t

theorem step_turn {pcb t : Pcb} {arrival : Arrival} (h : step pcb arrival = some t) :
    Turn pcb arrival t := by
  simp only [step] at h
  split at h
  swap
  · cases h
  rename_i hcond
  obtain ⟨-, hsource, -⟩ := hcond
  cases h
  cases hack : arrival.packet.ack with
  | true =>
    refine .skipped (Or.inl hack) ?_ ?_ ?_
    all_goals simp [tcpNetmlInput, hack]
  | false =>
    have houtcome := receiveData_outcome (pcb.worker arrival.packet.srcId) arrival.packet
      arrival.copyOk
    cases hresult : receiveData (pcb.worker arrival.packet.srcId) arrival.packet arrival.copyOk with
    | none =>
      have hcrash : arrival.copyOk = false := by
        rw [hresult] at houtcome
        rw [Bool.eq_false_iff]
        intro hcopy
        rw [hcopy] at houtcome
        cases houtcome
      rw [Pcb.worker] at hresult
      refine .skipped (Or.inr hcrash) ?_ ?_ ?_
      all_goals simp [tcpNetmlInput, hack, hresult]
    | some result =>
      rw [hresult] at houtcome
      rw [Pcb.worker] at hresult
      refine .processed hack hsource ⟨houtcome, ?_, ?_, ?_, ?_, ?_⟩
      · simp [tcpNetmlInput, hack, hresult]
      · simp [tcpNetmlInput, hack, hresult, Pcb.worker, Pcb.setConn]
      · simp [tcpNetmlInput, hack, hresult, Pcb.worker, Pcb.setConn]
      · intro source hge hne
        have hindex : source - 8 ≠ arrival.packet.srcId - 8 := by omega
        simp [tcpNetmlInput, hack, hresult, Pcb.worker, Pcb.setConn, hindex]
      · simp [tcpNetmlInput, hack, hresult, Pcb.arrived]

end Uzmq.NetmlReceive
