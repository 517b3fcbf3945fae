import Uzmq.NetmlReassembly

/-!
# Acknowledged segments

`tcp_receive_data` acknowledges every data segment. It keeps all of them but two
kinds: one that belongs at the end of the out-of-order list when no copy can be
made, and one below the next number that has not been there before. A run without
the two never discards what it has acknowledged. Streams shorter than the number
space have no segments of the second kind.
-/

namespace Uzmq.NetmlAck

open List NetmlReceive NetmlReassembly Runs

def isCold (p : Packet) : Prop := p.offsetFlags = .cold ∨ p.offsetFlags = .coldRe
  deriving Decidable

def sameData (p q : Packet) : Prop :=
  p.srcId = q.srcId ∧ p.position = q.position ∧ p.payload = q.payload
  deriving Decidable

/-- The payload has been passed up or is held for its source. -/
def Kept (pcb : Pcb) (p : Packet) : Prop :=
  ∃ q, (q ∈ pcb.received ∨ q ∈ (pcb.worker p.srcId).ooseq) ∧ sameData q p

/-- A cold segment that arrives for the first time is not below the next number,
and can be copied when it has to be linked behind all queued ones. -/
def Keepable (pcb : Pcb) (arrival : Arrival) : Prop :=
  isCold arrival.packet → arrival.packet.ack = false →
    (∃ q ∈ pcb.arrived, isCold q ∧ sameData q arrival.packet) ∨
      ((pcb.worker arrival.packet.srcId).nxtwish ≤ arrival.packet.internaltunl ∧
        ((pcb.worker arrival.packet.srcId).nxtwish < arrival.packet.internaltunl →
          atEnd arrival.packet.internaltunl (pcb.worker arrival.packet.srcId).ooseq →
          arrival.copyOk = true))
  deriving Decidable

structure AllKept (pcb : Pcb) : Prop where
  sources : ∀ p ∈ pcb.arrived, 8 ≤ p.srcId
  kept : ∀ p ∈ pcb.arrived, isCold p → Kept pcb p

variable {q : Packet} {worker : TcpInternalId} {recvData : List Packet}

section Steps
variable {pcb t : Pcb} {arrival : Arrival} {p : Packet}

theorem sameData.trans {r : Packet} (h : sameData p q) (h' : sameData q r) : sameData p r :=
  ⟨h.1.trans h'.1, h.2.1.trans h'.2.1, h.2.2.trans h'.2.2⟩

theorem Kept.of_sameData (h : Kept pcb q) (hsame : sameData q p) : Kept pcb p := by
  obtain ⟨r, hr, hrq⟩ := h
  refine ⟨r, ?_, hrq.trans hsame⟩
  rw [← hsame.1]
  exact hr

/-- What is kept stays kept. -/
theorem Kept.step (h : Kept pcb p) (hsource : 8 ≤ p.srcId)
    (hp : Processed pcb arrival worker recvData t) : Kept t p := by
  obtain ⟨q, hq, hsame⟩ := h
  refine ⟨q, ?_, hsame⟩
  rw [hp.received]
  rcases hq with hreceived | hqueued
  · exact Or.inl (mem_append_left _ hreceived)
  by_cases heq : p.srcId = arrival.packet.srcId
  · rw [heq] at hqueued ⊢
    rw [hp.ooseq]
    rcases hp.outcome.mem_of_queued hqueued with hpassed | hstill
    · exact Or.inl (mem_append_right _ hpassed)
    · exact Or.inr hstill
  · rw [hp.others _ hsource heq]
    exact Or.inr hqueued

/-- The cases in which the segment itself is passed up or queued. -/
theorem kept_of_keepable (hp : Processed pcb arrival worker recvData t)
    (hwish : (pcb.worker arrival.packet.srcId).nxtwish ≤ arrival.packet.internaltunl)
    (hcopy : (pcb.worker arrival.packet.srcId).nxtwish < arrival.packet.internaltunl →
      atEnd arrival.packet.internaltunl (pcb.worker arrival.packet.srcId).ooseq →
      arrival.copyOk = true) : Kept t arrival.packet := by
  refine ⟨arrival.packet, ?_, rfl, rfl, rfl⟩
  rw [hp.received, hp.ooseq]
  have houtcome := hp.outcome
  cases hcopyOk : arrival.copyOk with
  | true =>
    rw [hcopyOk] at houtcome
    cases houtcome with
    | inOrder => exact Or.inl (by simp)
    | chained wish queued result =>
      rcases (mem_chain result arrival.packet).mp mem_cons_self with hpassed | hqueued
      · exact Or.inl (mem_append_right _ hpassed)
      · exact Or.inr hqueued
    | queued => exact Or.inr (by simp)
    | old behind => omega
  | false =>
    rw [hcopyOk] at houtcome hcopy
    cases houtcome with
    | inOrder => exact Or.inl (by simp)
    | lost ahead last => exact absurd (hcopy ahead last) (by decide)
    | old behind => omega

theorem allKept_step (h : AllKept pcb) (keepable : Keepable pcb arrival)
    (hstep : step pcb arrival = some t) : AllKept t := by
  cases step_turn hstep with
  | skipped why workers received acks =>
    have harrived : t.arrived = pcb.arrived := by rw [Pcb.arrived, acks, Pcb.arrived]
    constructor
    · rw [harrived]
      exact h.sources
    rw [harrived]
    intro p hp hcold
    obtain ⟨q, hq, hsame⟩ := h.kept p hp hcold
    refine ⟨q, ?_, hsame⟩
    rw [received, Pcb.worker, workers]
    exact hq
  | processed data hsource hp =>
    constructor
    · rw [hp.arrived]
      exact forall_mem_append.mpr ⟨h.sources, forall_mem_singleton.mpr hsource⟩
    · intro p hmem hcold
      rw [hp.arrived] at hmem
      rcases mem_append.mp hmem with hold | hnew
      · exact (h.kept p hold hcold).step (h.sources p hold) hp
      · rw [mem_singleton.mp hnew] at hcold ⊢
        rcases keepable hcold data with ⟨q, hq, hqcold, hsame⟩ | ⟨hwish, hcopy⟩
        · exact ((h.kept q hq hqcold).of_sameData hsame).step hsource hp
        · exact kept_of_keepable hp hwish hcopy

theorem new_allKept (rcvNxt : Nat) : AllKept (Pcb.new rcvNxt) := by
  constructor <;> rintro p ⟨⟩

end Steps

/-- In a run of keepable arrivals every acknowledged cold segment has been passed up
or is held, at every moment. -/
theorem acknowledged_kept (rcvNxt : Nat) (pcb : Pcb)
    (h : Reach (· = Pcb.new rcvNxt) Keepable step pcb) :
    ∀ p ∈ pcb.arrived, isCold p → Kept pcb p := by
  have hinv : AllKept pcb := by
    apply h.invariant
    · rintro s rfl
      exact new_allKept rcvNxt
    · intro s arrival t hs keepable hstep
      exact allKept_step hs keepable hstep
  exact hinv.kept

/-- The second segment before the first one. -/
def keepableRun : List Arrival := [⟨secondPacket, true⟩, ⟨firstPacket, true⟩]

theorem keepableRun_kept :
    ∃ pcb, Reach (· = Pcb.new 0) Keepable step pcb ∧ pcb.arrived.length = 2 ∧
      ∀ p ∈ pcb.arrived, isCold p → Kept pcb p := by
  refine Reach.of_exec_right (s := Pcb.new 0) Keepable step keepableRun ?_ rfl
    fun pcb hpcb => acknowledged_kept 0 pcb hpcb
  decide +kernel

/-- An early segment that cannot be copied is acknowledged and gone. -/
theorem uncopied_segment_acknowledged :
    ∃ pcb, Reach (· = Pcb.new 0) Always step pcb ∧ secondPacket ∈ pcb.arrived ∧
      isCold secondPacket ∧ pcb.crashed = false ∧ ¬ Kept pcb secondPacket := by
  obtain ⟨pcb, hreach, harrived, hcold, hcrashed, hreceived, hooseq⟩ :
      ∃ pcb, Reach (· = Pcb.new 0) Always step pcb ∧ secondPacket ∈ pcb.arrived ∧
        isCold secondPacket ∧ pcb.crashed = false ∧ pcb.received = [] ∧
        (pcb.worker 8).ooseq = [] := by
    refine Reach.of_exec (s := Pcb.new 0) Always step [⟨secondPacket, false⟩] ?_ rfl
    decide +kernel
  refine ⟨pcb, hreach, harrived, hcold, hcrashed, ?_⟩
  rintro ⟨q, hq, -⟩
  have hsource : secondPacket.srcId = 8 := rfl
  rw [hreceived, hsource, hooseq] at hq
  rcases hq with h | h <;> cases h

section Streams
variable {cuts : Nat → Cut UInt8} {pcb t : Pcb} {arrival : Arrival} {p : Packet}

/-- Every data packet is a segment of the stream of its source and can be copied. -/
def SentByAll (cuts : Nat → Cut UInt8) (_ : Pcb) (arrival : Arrival) : Prop :=
  arrival.copyOk = true ∧ (arrival.packet.ack = false →
    ∃ i, IsSegment (cuts arrival.packet.srcId) arrival.packet.srcId i arrival.packet)

theorem chain_wanted_lt {wanted : Nat} (ooseq recvData : List Packet) (h : wanted < 2 ^ 16) :
    (chain wanted ooseq recvData).1 < 2 ^ 16 := by
  induction ooseq generalizing wanted recvData with
  | nil => exact h
  | cons cseg rest ih =>
    rw [chain]
    split
    · apply ih
      split <;> exact Nat.mod_lt _ (by decide)
    · exact h

/-- The number the chain leaves behind is wrong, but never above the one of the
segment that started it. -/
theorem chain_wanted_le {tunl : Nat} (hpos : 0 < tunl) (hlt : tunl < 2 ^ 32)
    (hp : p.intTunlno = htonl tunl) (ooseq : List Packet) :
    (chain (p.intTunlno % 2 ^ 16) (p :: ooseq) []).1 ≤ tunl := by
  obtain ⟨a, b, c, d, ha, hb, hc, hd, rfl⟩ := exists_bytes hlt
  rw [htonl_of_bytes ha hb hc hd] at hp
  by_cases hshort : p.intTunlno < 2 ^ 16
  · -- The two low bytes are zero, so the number itself does not fit 16 bits.
    have hwanted := chain_wanted_lt (p :: ooseq) []
      (Nat.mod_lt p.intTunlno (by decide : 2 ^ 16 > 0))
    have hlow : d = 0 ∧ c = 0 := by omega
    obtain ⟨rfl, rfl⟩ := hlow
    have hhigh : 0 < a ∨ 0 < b := by omega
    rcases hhigh with h | h <;> omega
  · have hne : ¬ p.intTunlno = p.intTunlno % 2 ^ 16 := by omega
    rw [chain, if_neg hne]
    have hmod : p.intTunlno % 2 ^ 16 = b * 2 ^ 8 + a := by
      omega
    omega

/-- Every segment has arrived or is not below the next number. -/
def Early (cuts : Nat → Cut UInt8) (pcb : Pcb) : Prop :=
  ∀ source, 8 ≤ source → ∀ i < (cuts source).parts.length,
    (∃ p ∈ pcb.arrived, IsSegment (cuts source) source i p) ∨
      (pcb.worker source).nxtwish ≤ 1 + (cuts source).offset i

/-- The next number grows with an in-order segment only, and then to the number of
the segment that follows it. -/
theorem nxtwish_le_of_outcome {cut : Cut UInt8} {source i : Nat} {worker' : TcpInternalId}
    (hshort : 1 + cut.stream.length < 2 ^ 32) (hseg : IsSegment cut source i p)
    (h : Outcome worker p true (some (worker', recvData))) :
    worker'.nxtwish ≤ worker.nxtwish ∨
      (worker.nxtwish = 1 + cut.offset i ∧ worker'.nxtwish ≤ 1 + cut.offset (i + 1)) := by
  have hle : cut.offset (i + 1) ≤ cut.stream.length := Cut.offset_le_length hseg.lt
  have hstep := Cut.offset_lt_succ hseg.lt
  have htunl : p.internaltunl = 1 + cut.offset i := by
    rw [hseg.internaltunl]
    exact Nat.mod_eq_of_lt (by omega)
  cases h with
  | inOrder wish empty =>
    refine Or.inr ⟨wish.trans htunl, ?_⟩
    simp only [hseg.not_agg, if_false, hseg.next_wish]
    exact Nat.mod_le _ _
  | chained wish queued result =>
    have hstored : p.intTunlno = htonl (1 + cut.offset i) := by
      rw [hseg.tunlno, Nat.mod_eq_of_lt (by omega)]
    have hchain := chain_wanted_le (by omega) (by omega) hstored worker.ooseq
    rw [result] at hchain
    exact Or.inl (by rw [wish, htunl]; exact hchain)
  | queued | old => exact Or.inl (Nat.le_refl _)

section
variable (hshort : ∀ source, 1 + (cuts source).stream.length < 2 ^ 32) (h : Early cuts pcb)
  (sent : SentByAll cuts pcb arrival) (hstep : step pcb arrival = some t)
include hshort h sent hstep

theorem early_step : Early cuts t := by
  obtain ⟨hcopy, hsent⟩ := sent
  cases step_turn hstep with
  | skipped why workers received acks =>
    intro source hs i hi
    rw [Pcb.arrived, acks, Pcb.worker, workers]
    exact h source hs i hi
  | processed data hsource hp =>
    obtain ⟨k, hseg⟩ := hsent data
    intro source hs i hi
    rw [hp.arrived]
    rcases h source hs i hi with ⟨p, hmem, hp'⟩ | hwish
    · exact Or.inl ⟨p, mem_append_left _ hmem, hp'⟩
    by_cases heq : source = arrival.packet.srcId
    swap
    · rw [hp.others source hs heq]
      exact Or.inr hwish
    subst heq
    rw [hp.nxtwish]
    have houtcome := hp.outcome
    rw [hcopy] at houtcome
    rcases nxtwish_le_of_outcome (hshort _) hseg houtcome with hle | ⟨hold, hnew⟩
    · exact Or.inr (Nat.le_trans hle hwish)
    -- The segment that has just arrived was the first one missing.
    rcases Nat.lt_trichotomy k i with hlt | rfl | hgt
    · have hnext : (cuts arrival.packet.srcId).offset (k + 1) ≤ _ :=
        Cut.offset_le_of_le hlt (Nat.le_of_lt hi)
      exact Or.inr (by omega)
    · exact Or.inl ⟨arrival.packet, by simp, hseg⟩
    · have := Cut.offset_lt_of_lt hgt (Nat.le_of_lt hseg.lt)
      omega

theorem keepable_of_early : Keepable pcb arrival := by
  intro hcold data
  obtain ⟨hcopy, hsent⟩ := sent
  obtain ⟨i, hseg⟩ := hsent data
  have hsource : 8 ≤ arrival.packet.srcId := by
    simp only [step] at hstep
    split at hstep
    · rename_i hcond
      exact hcond.2.1
    · cases hstep
  rcases h _ hsource i hseg.lt with ⟨q, hq, hqseg⟩ | hwish
  · refine Or.inl ⟨q, hq, hqseg.flags, hqseg.srcId, ?_, ?_⟩
    · rw [hqseg.position, hseg.position]
    · exact Option.some.inj (hqseg.part.symm.trans hseg.part)
  have hoffset := Cut.offset_le_length (Nat.le_of_lt hseg.lt)
  have htunl : arrival.packet.internaltunl = 1 + (cuts arrival.packet.srcId).offset i := by
    rw [hseg.internaltunl]
    have := hshort arrival.packet.srcId
    exact Nat.mod_eq_of_lt (by omega)
  exact Or.inr ⟨by rw [htunl]; exact hwish, fun _ _ => hcopy⟩

end

/-- Senders whose streams do not wrap around never lose an acknowledged segment as
long as segments can be copied, although what they sent may not be passed up. -/
theorem kept_of_short_streams (hshort : ∀ source, 1 + (cuts source).stream.length < 2 ^ 32)
    {rcvNxt : Nat} (h : Reach (· = Pcb.new rcvNxt) (SentByAll cuts) step pcb) :
    ∀ p ∈ pcb.arrived, isCold p → Kept pcb p := by
  have hinv : Early cuts pcb ∧ AllKept pcb := by
    apply h.invariant
    · rintro s rfl
      refine ⟨?_, new_allKept rcvNxt⟩
      intro source _ i _
      exact Or.inr (Nat.le_add_right 1 _)
    · rintro s arrival t ⟨hearly, hkept⟩ sent hstep
      have keepable := keepable_of_early hshort hearly sent hstep
      exact ⟨early_step hshort hearly sent hstep, allKept_step hkept keepable hstep⟩
  exact hinv.2.kept

end Streams

theorem secondPacket_kept : ∃ pcb, secondPacket ∈ pcb.arrived ∧ Kept pcb secondPacket := by
  have h : Reach (· = Pcb.new 0) (SentByAll fun _ => shortCut) step _ :=
    .next (.start rfl) (i := ⟨secondPacket, true⟩) ⟨rfl, fun _ => ⟨1, by decide⟩⟩ rfl
  exact ⟨_, by decide, kept_of_short_streams (fun _ => by decide) h _ (by decide) (.inl rfl)⟩

end Uzmq.NetmlAck
