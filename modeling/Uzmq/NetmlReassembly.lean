import Uzmq.Cut
import Uzmq.NetmlReceive

/-!
# Reassembly of the stream of a node

The stream of a source is cut into segments, which arrive in any order and number,
mixed with anything from other nodes. As long as the list of out-of-order segments
of the source is empty the segments that follow each other are passed up one by
one. A segment that closes a gap is not: the chain compares the number stored in
network order, cut to 16 bits, and leaves a wrong number behind. The comparisons
with the next number are not modular either.
-/

namespace Uzmq.NetmlReassembly

open List NetmlReceive Runs

variable (cut : Cut UInt8) (source : Nat)

/-- The packet carries the part with index `i` as the sender numbers it. -/
structure IsSegment (i : Nat) (p : Packet) : Prop where
  part : cut.parts[i]? = some p.payload
  srcId : p.srcId = source
  data : p.ack = false
  flags : p.offsetFlags = .cold ∨ p.offsetFlags = .coldRe
  position : p.position = cut.offset i
  tunlno : p.intTunlno = htonl ((1 + cut.offset i) % 2 ^ 32)

instance (i : Nat) (p : Packet) : Decidable (IsSegment cut source i p) :=
  decidable_of_iff (cut.parts[i]? = some p.payload ∧ p.srcId = source ∧ p.ack = false ∧
      (p.offsetFlags = .cold ∨ p.offsetFlags = .coldRe) ∧ p.position = cut.offset i ∧
      p.intTunlno = htonl ((1 + cut.offset i) % 2 ^ 32))
    ⟨fun ⟨a, b, c, d, e, f⟩ => ⟨a, b, c, d, e, f⟩, fun ⟨a, b, c, d, e, f⟩ => ⟨a, b, c, d, e, f⟩⟩

/-- Everything that arrives is what its source sent, and segments can be copied. -/
def Sent (_ : Pcb) (arrival : Arrival) : Prop :=
  arrival.copyOk = true ∧ (arrival.packet.srcId = source → arrival.packet.ack = false →
    ∃ i ∈ List.range cut.parts.length, IsSegment cut source i arrival.packet)
  deriving Decidable

/-- The comparisons of the arrived segment agree with its place in the stream, of
which `passed` bytes have been passed up, and no segment has to be chained. The
chain does no harm to a segment with the number zero that it stops behind. -/
structure Orderly (worker : TcpInternalId) (passed : Nat) (p : Packet) : Prop where
  ahead : passed < p.position → worker.nxtwish < p.internaltunl
  behind : p.position < passed → p.internaltunl ≠ worker.nxtwish
  unchained : p.internaltunl = worker.nxtwish → worker.ooseq = [] ∨ (p.internaltunl = 0 ∧
    (∀ q ∈ worker.ooseq.head?, q.intTunlno ≠ p.len) ∧
    ∀ q ∈ worker.ooseq, q.internaltunl ≠ p.len)

instance (worker : TcpInternalId) (passed : Nat) (p : Packet) :
    Decidable (Orderly worker passed p) :=
  decidable_of_iff ((passed < p.position → worker.nxtwish < p.internaltunl) ∧
      (p.position < passed → p.internaltunl ≠ worker.nxtwish) ∧
      (p.internaltunl = worker.nxtwish → worker.ooseq = [] ∨ (p.internaltunl = 0 ∧
        (∀ q ∈ worker.ooseq.head?, q.intTunlno ≠ p.len) ∧
        ∀ q ∈ worker.ooseq, q.internaltunl ≠ p.len)))
    ⟨fun ⟨a, b, c⟩ => ⟨a, b, c⟩, fun ⟨a, b, c⟩ => ⟨a, b, c⟩⟩

def SentOrderly (pcb : Pcb) (arrival : Arrival) : Prop :=
  Sent cut source pcb arrival ∧ (arrival.packet.srcId = source → arrival.packet.ack = false →
    Orderly (pcb.worker source) (pcb.dataFor source).length arrival.packet)
  deriving Decidable

/-- The first `n` parts have been passed up, and every later one that has arrived
waits in the list. In particular the next one has not arrived. -/
structure Assembled (n : Nat) (pcb : Pcb) : Prop where
  le : n ≤ cut.parts.length
  data : pcb.dataFor source = (cut.parts.take n).flatten
  wish : (pcb.worker source).nxtwish = (1 + cut.offset n) % 2 ^ 32
  own : ∀ other, 8 ≤ other → ∀ p ∈ (pcb.worker other).ooseq, p.srcId = other
  waiting : ∀ p ∈ pcb.arrived, ∀ i, IsSegment cut source i p →
    i < n ∨ (n < i ∧ p ∈ (pcb.worker source).ooseq)

variable {worker : TcpInternalId} {recvData : List Packet}

section Steps
variable {cut source} {pcb t : Pcb} {arrival : Arrival} {n i : Nat} {p : Packet}

section
variable (h : IsSegment cut source i p)
include h

theorem IsSegment.lt : i < cut.parts.length :=
  (List.getElem?_eq_some_iff.mp h.part).1

theorem IsSegment.internaltunl : p.internaltunl = (1 + cut.offset i) % 2 ^ 32 := by
  rw [Packet.internaltunl, h.tunlno, ntohl_htonl (Nat.mod_lt _ (by decide))]

theorem IsSegment.not_agg : p.offsetFlags ≠ .agg := by
  rcases h.flags with h | h <;> simp [h]

omit h in
theorem IsSegment.index_eq {j : Nat} (hi : IsSegment cut source i p)
    (hj : IsSegment cut source j p) : i = j := by
  apply Cut.offset_inj (Nat.le_of_lt hi.lt) (Nat.le_of_lt hj.lt)
  rw [← hi.position, ← hj.position]

theorem IsSegment.next_wish :
    (p.internaltunl + p.len) % 2 ^ 32 = (1 + cut.offset (i + 1)) % 2 ^ 32 := by
  rw [h.internaltunl, Cut.offset_succ h.part, Packet.len, ← Nat.add_assoc]
  omega

end

theorem dataFor_append {received : List Packet} (h : t.received = pcb.received ++ received) :
    t.dataFor source = pcb.dataFor source ++
      ((received.filter (·.srcId = source)).map Packet.payload).flatten := by
  simp [Pcb.dataFor, h]

theorem Assembled.length_data (h : Assembled cut source n pcb) :
    (pcb.dataFor source).length = cut.offset n := by
  rw [h.data, Cut.offset]

theorem own_step (own : ∀ other, 8 ≤ other → ∀ p ∈ (pcb.worker other).ooseq, p.srcId = other)
    (hsource : 8 ≤ arrival.packet.srcId) (h : Processed pcb arrival worker recvData t) :
    (∀ other, 8 ≤ other → ∀ p ∈ (t.worker other).ooseq, p.srcId = other) ∧
      ∀ p ∈ recvData, p.srcId = arrival.packet.srcId := by
  have hmoved : ∀ p, p ∈ recvData ∨ p ∈ worker.ooseq → p.srcId = arrival.packet.srcId := by
    intro p hp
    rcases h.outcome.mem_or_mem hp with rfl | hold
    · rfl
    · exact own _ hsource p hold
  constructor
  · intro other hother p hp
    rcases eq_or_ne other arrival.packet.srcId with rfl | heq
    · rw [h.ooseq] at hp
      exact hmoved p (Or.inr hp)
    · rw [h.others other hother heq] at hp
      exact own other hother p hp
  · intro p hp
    exact hmoved p (Or.inl hp)

section
variable (h : Assembled cut source n pcb) (hs : 8 ≤ source)
include h hs

theorem Assembled.other (hsource : 8 ≤ arrival.packet.srcId)
    (hp : Processed pcb arrival worker recvData t) (hne : arrival.packet.srcId ≠ source) :
    Assembled cut source n t := by
  obtain ⟨hown, hrecv⟩ := own_step h.own hsource hp
  have hworker : t.worker source = pcb.worker source := hp.others source hs (Ne.symm hne)
  have hnone : recvData.filter (·.srcId = source) = [] := by
    apply filter_eq_nil_iff.mpr
    intro p hmem
    simp [hrecv p hmem, hne]
  refine ⟨h.le, ?_, ?_, hown, ?_⟩
  · rw [dataFor_append hp.received, hnone, h.data]
    simp
  · rw [hworker]
    exact h.wish
  intro p hmem i hi
  rw [hp.arrived] at hmem
  rcases mem_append.mp hmem with hold | hnew
  · rw [hworker]
    exact h.waiting p hold i hi
  · rw [mem_singleton.mp hnew] at hi
    exact absurd hi.srcId hne

theorem Assembled.advance (hseg : IsSegment cut source n arrival.packet)
    (hp : Processed pcb arrival worker [arrival.packet] t)
    (hwish : worker.nxtwish = (1 + cut.offset (n + 1)) % 2 ^ 32)
    (hooseq : worker.ooseq = (pcb.worker source).ooseq)
    (hnext : ∀ q ∈ (pcb.worker source).ooseq, ¬ IsSegment cut source (n + 1) q) :
    Assembled cut source (n + 1) t := by
  have hsrc := hseg.srcId
  have hdata : t.dataFor source = pcb.dataFor source ++ arrival.packet.payload := by
    rw [dataFor_append hp.received]
    simp [hsrc]
  refine ⟨hseg.lt, ?_, ?_, (own_step h.own (hsrc ▸ hs) hp).1, ?_⟩
  · rw [hdata, h.data, Cut.flatten_take_succ hseg.part]
  · rw [← hwish, ← hp.nxtwish, hsrc]
  intro p hmem i hi
  rw [hp.arrived] at hmem
  rcases mem_append.mp hmem with hold | hnew
  · rcases h.waiting p hold i hi with hlt | ⟨hgt, hqueued⟩
    · exact Or.inl (by omega)
    refine Or.inr ⟨?_, ?_⟩
    · have hne : i ≠ n + 1 := by
        rintro rfl
        exact hnext p hqueued hi
      omega
    · rw [← hsrc, hp.ooseq, hooseq]
      exact hqueued
  · rw [mem_singleton.mp hnew] at hi
    exact Or.inl (by rw [hi.index_eq hseg]; omega)

/-- The segment was queued or dropped; dropping is for a part passed up before. -/
theorem Assembled.stay (hseg : IsSegment cut source i arrival.packet)
    (hp : Processed pcb arrival worker [] t) (hwish : worker.nxtwish = (pcb.worker source).nxtwish)
    (hplace : i < n ∨ (n < i ∧ arrival.packet ∈ worker.ooseq)) : Assembled cut source n t := by
  have hsrc := hseg.srcId
  have hooseq : (t.worker source).ooseq = worker.ooseq := by rw [← hsrc, hp.ooseq]
  refine ⟨h.le, ?_, ?_, (own_step h.own (hsrc ▸ hs) hp).1, ?_⟩
  · rw [dataFor_append hp.received, h.data]
    simp
  · rw [← h.wish, ← hwish, ← hp.nxtwish, hsrc]
  intro p hmem j hj
  rw [hp.arrived] at hmem
  rw [hooseq]
  rcases mem_append.mp hmem with hold | hnew
  · rcases h.waiting p hold j hj with hlt | ⟨hgt, hqueued⟩
    · exact Or.inl hlt
    · refine Or.inr ⟨hgt, ?_⟩
      rw [← hsrc] at hqueued
      exact (hp.outcome.mem_of_queued hqueued).resolve_left not_mem_nil
  · rw [mem_singleton.mp hnew] at hj ⊢
    rw [hj.index_eq hseg]
    exact hplace

end

/-- Without a match behind the new segment the chain passes it up alone. -/
theorem chain_of_zero {ooseq : List Packet} (hzero : p.intTunlno = 0)
    (hflags : p.offsetFlags ≠ .agg) (hhead : ∀ q ∈ ooseq.head?, q.intTunlno ≠ p.len) :
    chain (p.intTunlno % 2 ^ 16) (p :: ooseq) [] = (p.len, ooseq, [p]) := by
  have hlen : (0 + p.len) % 2 ^ 16 = p.len := by
    rw [Nat.zero_add]
    exact Nat.mod_eq_of_lt p.length_lt
  simp only [chain, hzero, Nat.zero_mod, if_true, hflags, if_false, hlen, nil_append]
  cases ooseq with
  | nil => rfl
  | cons head tail =>
    have hne := hhead head rfl
    simp [chain, hne]

section
variable (h : Assembled cut source n pcb)
include h

theorem Assembled.segment (hs : 8 ≤ source) (hseg : IsSegment cut source i arrival.packet)
    (hcopy : arrival.copyOk = true)
    (orderly : Orderly (pcb.worker source) (cut.offset n) arrival.packet)
    (hp : Processed pcb arrival worker recvData t) : ∃ n, Assembled cut source n t := by
  have hsrc := hseg.srcId
  have houtcome := hp.outcome
  rw [hsrc, hcopy] at houtcome
  rcases Nat.lt_trichotomy i n with hbefore | rfl | hafter
  · -- A part passed up before: the comparison cannot take it for the next one.
    have hne := orderly.behind (by rw [hseg.position]; exact Cut.offset_lt_of_lt hbefore h.le)
    cases houtcome with
    | inOrder wish | chained wish => exact absurd wish.symm hne
    | queued | old => exact ⟨n, h.stay hs hseg hp rfl (Or.inl hbefore)⟩
  · have heq : arrival.packet.internaltunl = (pcb.worker source).nxtwish := by
      rw [hseg.internaltunl, h.wish]
    cases houtcome with
    | inOrder wish empty =>
      refine ⟨i + 1, h.advance hs hseg hp ?_ rfl ?_⟩
      · simp only [hseg.not_agg, if_false]
        exact hseg.next_wish
      · rw [empty]
        rintro q ⟨⟩
    | chained wish queued result =>
      obtain ⟨hzero, hhead, hnext⟩ := (orderly.unchained heq).resolve_left queued
      have hstored : arrival.packet.intTunlno = 0 := by
        rw [hseg.tunlno, ← hseg.internaltunl, hzero]
        rfl
      rw [chain_of_zero hstored hseg.not_agg hhead] at result
      cases result
      have hwish : arrival.packet.len = (1 + cut.offset (i + 1)) % 2 ^ 32 := by
        rw [← hseg.next_wish, hzero, Nat.zero_add]
        have := arrival.packet.length_lt
        exact (Nat.mod_eq_of_lt (by rw [Packet.len]; omega)).symm
      refine ⟨i + 1, h.advance hs hseg hp hwish rfl ?_⟩
      intro q hq hqseg
      apply hnext q hq
      rw [hqseg.internaltunl, ← hwish]
    | queued | old => omega
  · have hoffset := Cut.offset_lt_of_lt hafter (Nat.le_of_lt hseg.lt)
    have hgt := orderly.ahead (by rw [hseg.position]; exact hoffset)
    cases houtcome with
    | inOrder | chained => omega
    | queued => exact ⟨n, h.stay hs hseg hp rfl (Or.inr ⟨hafter, by simp⟩)⟩
    | old behind => omega

theorem Assembled.skip (workers : t.internalConn = pcb.internalConn)
    (received : t.received = pcb.received) (acks : t.acks = pcb.acks) :
    Assembled cut source n t := by
  have hworker : ∀ other, t.worker other = pcb.worker other := by
    intro other
    rw [Pcb.worker, Pcb.worker, workers]
  refine ⟨h.le, ?_, ?_, ?_, ?_⟩
  · rw [Pcb.dataFor, received]
    exact h.data
  · rw [hworker]
    exact h.wish
  · intro other
    rw [hworker]
    exact h.own other
  · intro p hp
    rw [hworker]
    rw [Pcb.arrived, acks] at hp
    exact h.waiting p hp

theorem assembled_step (hs : 8 ≤ source) (orderly : SentOrderly cut source pcb arrival)
    (hstep : step pcb arrival = some t) : ∃ n, Assembled cut source n t := by
  obtain ⟨⟨hcopy, hsent⟩, horderly⟩ := orderly
  cases step_turn hstep with
  | skipped why workers received acks => exact ⟨n, h.skip workers received acks⟩
  | processed data hsource hp =>
    by_cases heq : arrival.packet.srcId = source
    · obtain ⟨i, -, hseg⟩ := hsent heq data
      have hord := horderly heq data
      rw [h.length_data] at hord
      exact h.segment hs hseg hcopy hord hp
    · exact ⟨n, h.other hs hsource hp heq⟩

omit h in
theorem new_assembled (rcvNxt : Nat) : Assembled cut source 0 (Pcb.new rcvNxt) := by
  refine ⟨Nat.zero_le _, rfl, ?_, ?_, ?_⟩
  · simp [Pcb.worker, Pcb.new]
  · rintro other - p ⟨⟩
  · rintro p ⟨⟩

/-- The next part has not arrived, so the parts that cover the first `k` bytes can
have arrived only if `k` bytes have been passed up. -/
theorem Assembled.complete {k : Nat} (hk : k ≤ cut.stream.length)
    (arrived : ∀ i < cut.parts.length, cut.offset i < k →
      ∃ p ∈ pcb.arrived, IsSegment cut source i p) : k ≤ (pcb.dataFor source).length := by
  rw [h.length_data]
  by_contra hlt
  have hn : n < cut.parts.length := by
    rcases Nat.lt_or_eq_of_le h.le with hn | rfl
    · exact hn
    · rw [Cut.offset_length] at hlt
      omega
  obtain ⟨p, hp, hseg⟩ := arrived n hn (by omega)
  rcases h.waiting p hp n hseg with hbefore | ⟨hafter, -⟩ <;> omega

end

end Steps

/-- In a run in which no segment is misjudged and none has to be chained, the data
passed up for the source is a prefix of its stream, and reaches as far as the
segments have arrived without a gap. -/
theorem reassembled_of_orderly (rcvNxt : Nat) (hs : 8 ≤ source) (pcb : Pcb)
    (h : Reach (· = Pcb.new rcvNxt) (SentOrderly cut source) step pcb) :
    pcb.dataFor source <+: cut.stream ∧
      ∀ k ≤ cut.stream.length,
        (∀ i < cut.parts.length, cut.offset i < k →
          ∃ p ∈ pcb.arrived, IsSegment cut source i p) →
        k ≤ (pcb.dataFor source).length := by
  obtain ⟨n, hassembled⟩ : ∃ n, Assembled cut source n pcb := by
    apply h.invariant
    · rintro s rfl
      exact ⟨0, new_assembled rcvNxt⟩
    · rintro s arrival t ⟨n, hs'⟩ orderly hstep
      exact assembled_step hs' hs orderly hstep
  constructor
  · rw [hassembled.data]
    exact Cut.flatten_take_le n
  · intro k hk arrived
    exact hassembled.complete hk arrived

/-- A stream of three bytes in two parts. -/
def shortCut : Cut UInt8 := ⟨[[1], [2, 3]], by decide⟩

def firstPacket : Packet :=
  { srcId := 8, intTunlno := htonl 1, payload := [1], position := 0 }

def secondPacket : Packet :=
  { srcId := 8, intTunlno := htonl 2, payload := [2, 3], position := 1 }

/-- In order, with a repetition and a packet of another node in between. -/
def orderlyRun : List Arrival :=
  [⟨firstPacket, true⟩, ⟨{ srcId := 9, intTunlno := 7, payload := [5], position := 0 }, true⟩,
    ⟨firstPacket, true⟩, ⟨secondPacket, true⟩]

theorem orderlyRun_reassembled :
    ∃ pcb, Reach (· = Pcb.new 0) (SentOrderly shortCut 8) step pcb ∧
      pcb.dataFor 8 = [1, 2, 3] ∧ pcb.dataFor 8 <+: shortCut.stream := by
  refine Reach.of_exec_right (s := Pcb.new 0) (SentOrderly shortCut 8) step orderlyRun ?_ rfl
    fun pcb hpcb => (reassembled_of_orderly shortCut 8 0 (by decide) pcb hpcb).1
  decide +kernel

/-- The second segment first: when the first one closes the gap, nothing is passed
up although both have arrived. -/
theorem closed_gap_not_passed :
    ∃ pcb, Reach (· = Pcb.new 0) (Sent shortCut 8) step pcb ∧
      (∀ i < shortCut.parts.length, ∃ p ∈ pcb.arrived, IsSegment shortCut 8 i p) ∧
      pcb.dataFor 8 = [] ∧ (pcb.worker 8).nxtwish = 0 := by
  refine Reach.of_exec (s := Pcb.new 0) (Sent shortCut 8) step
    [⟨secondPacket, true⟩, ⟨firstPacket, true⟩] ?_ rfl
  decide +kernel

end Uzmq.NetmlReassembly
