import Uzmq.NetmlSend

/-!
# The send queues hang together

Two disjoint, properly linked lists hold every segment that was written and has
not been acknowledged, and the send buffer accounts for them. Each operation keeps
this but for three slips: `tcp_write_netml` does not link its segments back to the
last unsent one, `tcp_rexmit_data` returns without queueing a segment that is busy
after it was taken from `unacked`, and the walk that retransmits follows `prev`
into `unsent`, where it must not meet a segment that was never retransmitted.
-/

namespace Uzmq.NetmlSendQueues

open Function List
open Linked NetmlSend Runs

section Pointers
variable {m : Links Nat} {head : Option Nat} {a b l : List Nat} {seg cur : Nat}

/-- The head of a list changes only if there is nothing before the changed place. -/
def headAfter (before head new : Option Nat) : Option Nat :=
  match before with
  | none => new
  | some _ => head

theorem headAfter_getLast (h : head = (a ++ l).head?) :
    headAfter a.getLast? head b.head? = (a ++ b).head? := by
  cases a with
  | nil => rfl
  | cons i a =>
    rw [getLast?_eq_some_getLast (cons_ne_nil i a), h]
    rfl

theorem removeFrom_eq (m : Links Nat) (head : Option Nat) (seg : Nat) :
    removeFrom m head seg = (m.link (m.prev seg) (m.next seg),
      headAfter (m.prev seg) head (m.next seg)) := by
  unfold removeFrom
  cases hprev : m.prev seg with
  | none | some =>
    cases hnext : m.next seg with
    | none | some => rfl

theorem removeFrom_queue (h : IsQueue m head (a ++ seg :: b)) :
    IsQueue (removeFrom m head seg).1 (removeFrom m head seg).2 (a ++ b) := by
  have hunlink := h.unlink
  obtain ⟨-, hprev, hnext, -⟩ := between_split.mp h.between
  have hhead : (removeFrom m head seg).2 = (a ++ b).head? := by
    rw [removeFrom_eq, hprev, hnext]
    exact headAfter_getLast h.head_eq
  refine ⟨hhead, hunlink.nodup, ?_⟩
  rw [removeFrom_eq]
  exact hunlink.between

theorem removeFrom_frame {j : Nat} (h : IsQueue m head (a ++ seg :: b)) (hj : j ∉ a ++ b) :
    (removeFrom m head seg).1.next j = m.next j ∧ (removeFrom m head seg).1.prev j = m.prev j := by
  obtain ⟨-, hprev, hnext, -⟩ := between_split.mp h.between
  rw [removeFrom_eq, hprev, hnext]
  apply link_frame
  · intro heq
    exact hj (mem_append_left _ (mem_of_getLast? heq))
  · intro heq
    exact hj (mem_append_right _ (mem_of_mem_head? heq))

/-- The links after `seg` was put between two neighbours. -/
def insertLinks (m : Links Nat) (before after : Option Nat) (seg : Nat) : Links Nat :=
  (m.link (some seg) after).link before (some seg)

theorem insertLinks_queue (h : IsQueue m head (a ++ b)) (hnew : seg ∉ a ++ b) :
    IsQueue (insertLinks m a.getLast? b.head? seg) (headAfter a.getLast? head (some seg))
      (a ++ seg :: b) :=
  { h.insert hnew with head_eq := headAfter_getLast (b := seg :: b) h.head_eq }

theorem insertLinks_frame {j : Nat} (hj : j ∉ seg :: (a ++ b)) :
    (insertLinks m a.getLast? b.head? seg).next j = m.next j ∧
      (insertLinks m a.getLast? b.head? seg).prev j = m.prev j := by
  have hlast : a.getLast? ≠ some j := by
    intro heq
    exact hj (mem_cons_of_mem _ (mem_append_left _ (mem_of_getLast? heq)))
  have hhead : b.head? ≠ some j := by
    intro heq
    exact hj (mem_cons_of_mem _ (mem_append_right _ (mem_of_mem_head? heq)))
  have hseg : (some seg : Option Nat) ≠ some j := by
    rintro ⟨⟩
    exact hj mem_cons_self
  obtain ⟨hnext, hprev⟩ := link_frame (m := m.link (some seg) b.head?) hlast hseg
  obtain ⟨hnext', hprev'⟩ := link_frame (m := m) hseg hhead
  exact ⟨hnext.trans hnext', hprev.trans hprev'⟩

theorem insertBefore_eq (hne : seg ≠ cur) (before : Option Nat) (hprev : m.prev cur = before) :
    insertBefore m head before cur seg =
      (insertLinks m before (some cur) seg, headAfter before head (some seg)) := by
  have hcomm : update (update m.prev seg before) cur (some seg) =
      update (update m.prev cur (some seg)) seg before :=
    update_comm hne _ _ _
  cases before <;> simp [insertBefore, store, headAfter, insertLinks, Links.link, Links.setPrev,
    Links.setNext, hprev, hcomm]

/-- The assignments by which the code puts `seg` behind a last node `p`. -/
theorem insertLinks_last {p : Nat} (hne : p ≠ seg) :
    ((m.setNext p (some seg)).setPrev seg (some p)).setNext seg none =
      insertLinks m (some p) none seg := by
  have hcomm : update (update m.next p (some seg)) seg none =
      update (update m.next seg none) p (some seg) :=
    update_comm hne _ _ _
  simp [insertLinks, Links.link, Links.setNext, Links.setPrev, hcomm]

end Pointers

/-- The two queues are disjoint lists of allocated segments. -/
structure Lists (pcb : Pcb) (us ua : List Nat) : Prop where
  unsent : IsQueue pcb.links pcb.unsent us
  unacked : IsQueue pcb.links pcb.unacked ua
  disjoint : ∀ i ∈ us, i ∉ ua
  allocated : ∀ i ∈ us ++ ua, i < pcb.fresh

/-- They hold all segments to be acknowledged, and the send buffer accounts for them. -/
structure Queued (tcpSndBuf : Nat) (pcb : Pcb) (us ua : List Nat) : Prop extends
    Lists pcb us ua where
  nonempty : ∀ i ∈ us ++ ua, 0 < pcb.len i
  owed : ∀ i ∈ pcb.owed, i ∈ us ++ ua
  buffer : pcb.sndBuf + ((us ++ ua).map pcb.len).sum = tcpSndBuf
  alive : pcb.crashed = false

section Walks
variable {pcb : Pcb} {us ua l : List Nat} {head : Option Nat}

theorem Lists.nodup (h : Lists pcb us ua) : (us ++ ua).Nodup := by
  apply nodup_append.mpr
  refine ⟨h.unsent.nodup, h.unacked.nodup, ?_⟩
  rintro i hi j hj rfl
  exact h.disjoint i hi hj

theorem length_le_of_lt {n : Nat} (hnodup : l.Nodup) (hlt : ∀ i ∈ l, i < n) : l.length ≤ n := by
  have hsub : l ⊆ range n := by
    intro i hi
    exact mem_range.mpr (hlt i hi)
  have hle := (subperm_of_subset hnodup hsub).length_le
  rwa [length_range] at hle

theorem Lists.length_le (h : Lists pcb us ua) : us.length + ua.length ≤ pcb.fresh := by
  rw [← length_append]
  exact length_le_of_lt h.nodup h.allocated

theorem last_eq (h : IsQueue pcb.links head l) (hfuel : l.length ≤ pcb.fresh) :
    last pcb head = l.getLast? := by
  obtain ⟨a, b, rfl, hfind, -, hb⟩ := find_spec (fun _ => false) h.between hfuel none
  have hnil : b = [] := by
    cases b with
    | nil => rfl
    | cons i b => exact absurd (hb i rfl) (by simp)
  subst hnil
  rw [last, h.head_eq, hfind]
  simp

theorem place_eq (h : IsQueue pcb.links head l) (hfuel : l.length ≤ pcb.fresh) (seg : Nat) :
    ∃ a b, l = a ++ b ∧ place pcb head seg = (a.getLast?, b.head?) ∧
      (∀ i ∈ a, pcb.before i seg = true) ∧ ∀ i ∈ b.head?, pcb.before i seg = false := by
  obtain ⟨a, b, hl, hfind, ha, hb⟩ :=
    find_spec (fun cur => !pcb.before cur seg) h.between hfuel none
  refine ⟨a, b, hl, ?_, ?_, ?_⟩
  · rw [place, h.head_eq, hfind, Option.or_none]
  · intro i hi
    simpa using ha i hi
  · intro i hi
    simpa using hb i hi

theorem unsentList_eq (h : Lists pcb us ua) : unsentList pcb = us := by
  rw [unsentList, h.unsent.head_eq]
  have := h.length_le
  exact nodes_eq h.unsent.between (by omega)

theorem unackedList_eq (h : Lists pcb us ua) : unackedList pcb = ua := by
  rw [unackedList, h.unacked.head_eq]
  have := h.length_le
  exact nodes_eq h.unacked.between (by omega)

theorem Queued.of_perm {tcpSndBuf : Nat} {t : Pcb} {us' ua' : List Nat}
    (h : Queued tcpSndBuf pcb us ua) (hunsent : IsQueue t.links t.unsent us')
    (hunacked : IsQueue t.links t.unacked ua') (perm : (us' ++ ua').Perm (us ++ ua))
    (fresh : t.fresh = pcb.fresh) (len : t.len = pcb.len) (owed : t.owed = pcb.owed)
    (sndBuf : t.sndBuf = pcb.sndBuf) (alive : t.crashed = pcb.crashed) :
    Queued tcpSndBuf t us' ua' := by
  obtain ⟨-, -, hdisj⟩ := nodup_append.mp (perm.nodup_iff.mpr h.nodup)
  refine ⟨⟨hunsent, hunacked, ?_, ?_⟩, ?_, ?_, ?_, ?_⟩
  · intro i hi hi'
    exact hdisj i hi i hi' rfl
  · intro i hi
    rw [fresh]
    exact h.allocated i (perm.mem_iff.mp hi)
  · intro i hi
    rw [len]
    exact h.nonempty i (perm.mem_iff.mp hi)
  · intro i hi
    rw [owed] at hi
    exact perm.mem_iff.mpr (h.owed i hi)
  · rw [sndBuf, len, (perm.map pcb.len).sum_nat]
    exact h.buffer
  · rw [alive]
    exact h.alive

end Walks

section Output
variable {pcb : Pcb} {ua : List Nat} {seg : Nat}

/-- The segment moved by `tcp_output` finds a place in `unacked`: the walk to it is
made only if the last one is later, and does not run over the end of the list. -/
def PlaceExists (pcb : Pcb) (seg : Nat) (ua : List Nat) : Prop :=
  ∀ useg ∈ ua.getLast?, pcb.before seg useg = true → ∃ cur ∈ ua, pcb.before cur seg = false
  deriving Decidable

theorem putUnacked_eq (h : IsQueue ((pcb.links.setNext seg none).setPrev seg none) pcb.unacked ua)
    (hlast : last pcb pcb.unacked = ua.getLast?) (hseg : seg ∉ ua) (hfuel : ua.length ≤ pcb.fresh)
    (hplace : PlaceExists pcb seg ua) :
    ∃ a b, ua = a ++ b ∧ putUnacked pcb seg = { pcb with
      links := insertLinks ((pcb.links.setNext seg none).setPrev seg none) a.getLast? b.head? seg
      unacked := headAfter a.getLast? pcb.unacked (some seg) } := by
  rw [putUnacked, hlast]
  cases hu : ua.getLast? with
  | none =>
    refine ⟨[], [], getLast?_eq_none_iff.mp hu, ?_⟩
    simp [insertLinks, Links.link, Links.setNext, Links.setPrev, headAfter]
  | some useg =>
    have hsame : Pcb.before { pcb with links := (pcb.links.setNext seg none).setPrev seg none } =
      pcb.before := rfl
    cases hbefore : pcb.before seg useg with
    | false =>
      refine ⟨ua, [], (append_nil ua).symm, ?_⟩
      simp only [hsame, hbefore]
      simp [hu, insertLinks, Links.link, Links.setNext, Links.setPrev, headAfter]
    | true =>
      obtain ⟨a, b, rfl, hfound, ha, -⟩ := @place_eq
        { pcb with links := (pcb.links.setNext seg none).setPrev seg none } _ _ h hfuel seg
      cases b with
      | nil =>
        -- Everything in the list is earlier, which `hplace` excludes.
        obtain ⟨cur, hcur, hnot⟩ := hplace useg hu hbefore
        rw [append_nil] at hcur
        cases hnot.symm.trans (ha cur hcur)
      | cons cur b =>
        have hne : seg ≠ cur := by
          rintro rfl
          exact hseg (by simp)
        have hprev := (between_split.mp h.between).2.1
        refine ⟨a, cur :: b, rfl, ?_⟩
        simp only [hsame, hbefore, if_true, hfound, head?_cons, insertBefore_eq hne _ hprev]

theorem putUnacked_spec (h : IsQueue pcb.links pcb.unacked ua) (hseg : seg ∉ ua)
    (hfuel : ua.length ≤ pcb.fresh) (hplace : PlaceExists pcb seg ua) :
    ∃ m unacked ua', putUnacked pcb seg = { pcb with links := m, unacked := unacked } ∧
      IsQueue m unacked ua' ∧ ua'.Perm (seg :: ua) ∧
      ∀ j ∉ seg :: ua, m.next j = pcb.links.next j ∧ m.prev j = pcb.links.prev j := by
  -- The segment's own pointers are reset first.
  let m := (pcb.links.setNext seg none).setPrev seg none
  have hreset : ∀ j, j ≠ seg → m.next j = pcb.links.next j ∧ m.prev j = pcb.links.prev j :=
    fun j hj => ⟨Links.setNext_next_ne _ _ _ _ hj, Links.setPrev_prev_ne _ _ _ _ hj⟩
  have hqueue : IsQueue m pcb.unacked ua := by
    refine h.congr ?_
    intro i hi
    exact hreset i (by rintro rfl; exact hseg hi)
  obtain ⟨a, b, rfl, hput⟩ := putUnacked_eq hqueue (last_eq h hfuel) hseg hfuel hplace
  refine ⟨_, _, a ++ seg :: b, hput, insertLinks_queue hqueue hseg, perm_middle, ?_⟩
  intro j hj
  obtain ⟨hnext, hprev⟩ := insertLinks_frame (m := m) hj
  obtain ⟨hnext', hprev'⟩ := hreset j (ne_of_not_mem_cons hj)
  exact ⟨hnext.trans hnext', hprev.trans hprev'⟩

/-- A turn of `tcp_output` moves the first unsent segment to `unacked`. -/
theorem Queued.output {tcpSndBuf : Nat} {us : List Nat} (h : Queued tcpSndBuf pcb us ua)
    (hplace : ∀ seg ∈ us.head?, PlaceExists pcb seg ua) :
    ∃ us' ua', Queued tcpSndBuf (tcpOutputTurn pcb) us' ua' := by
  cases us with
  | nil =>
    have hnone : pcb.unsent = none := h.unsent.head_eq
    refine ⟨[], ua, ?_⟩
    simpa [tcpOutputTurn, hnone] using h
  | cons seg us =>
    have hsome : pcb.unsent = some seg := h.unsent.head_eq
    obtain ⟨-, hnext, hrest⟩ := h.unsent.between
    obtain ⟨hnot, hnodup⟩ := nodup_cons.mp h.unsent.nodup
    have hseg : seg ∉ ua := h.disjoint seg mem_cons_self
    have hpos : 0 < pcb.len seg := h.nonempty seg (by simp)
    have hlength := h.length_le
    obtain ⟨m, unacked, ua', hput, hunacked, hperm, hframe⟩ :=
      @putUnacked_spec { pcb with unsent := pcb.links.next seg } ua seg h.unacked hseg
        (by simp only [length_cons] at hlength; change ua.length ≤ pcb.fresh; omega)
        (hplace seg rfl)
    have hrest' : Between m (some seg) us none := by
      refine hrest.congr ?_
      intro j hj
      apply hframe
      rintro hmem
      rcases mem_cons.mp hmem with rfl | hmem
      · exact hnot hj
      · exact h.disjoint j (mem_cons_of_mem _ hj) hmem
    have hpermAll : (us ++ ua').Perm (seg :: us ++ ua) :=
      (hperm.append_left us).trans perm_middle
    have hus : IsQueue (m.link none us.head?) us.head? us := by
      refine ⟨rfl, hnodup, ?_⟩
      by_cases hnil : us = []
      · subst hnil
        trivial
      · apply hrest'.link_first hnil hnodup
        rintro j ⟨⟩
    have hua : IsQueue (m.link none us.head?) unacked ua' := by
      refine hunacked.congr ?_
      intro j hj
      apply link_frame
      · rintro ⟨⟩
      intro heq
      have hus : j ∈ us := mem_of_mem_head? heq
      rcases mem_cons.mp (hperm.mem_iff.mp hj) with rfl | hua
      · exact hnot hus
      · exact h.disjoint j (mem_cons_of_mem _ hus) hua
    have hturn : tcpOutputTurn pcb = { pcb with
        unsent := us.head?, unacked := unacked, links := m.link none us.head? } := by
      simp only [tcpOutputTurn, hsome]
      rw [if_pos hpos, hput]
      simp only [hnext]
      cases us <;> rfl
    rw [hturn]
    exact ⟨us, ua', h.of_perm hus hua hpermAll rfl rfl rfl rfl rfl⟩

/-- `tcp_rexmit_rto_prepare` puts `unacked` before `unsent`. -/
theorem Queued.rtoPrepare {tcpSndBuf : Nat} {us : List Nat} (h : Queued tcpSndBuf pcb us ua)
    (busy : Nat → Bool) : ∃ us' ua', Queued tcpSndBuf (tcpRexmitRtoPrepare pcb busy) us' ua' := by
  have hlength := h.length_le
  have hlast := last_eq h.unacked (by omega)
  cases hu : ua.getLast? with
  | none =>
    refine ⟨us, ua, ?_⟩
    simpa [tcpRexmitRtoPrepare, hlast, hu] using h
  | some seg =>
    by_cases hbusy : (unackedList pcb).any busy
    · refine ⟨us, ua, ?_⟩
      simpa [tcpRexmitRtoPrepare, hlast, hu, hbusy] using h
    have hjoin := h.unacked.append h.unsent fun i hi hi' => h.disjoint i hi' hi
    rw [hu] at hjoin
    have hprepare : tcpRexmitRtoPrepare pcb busy = { pcb with
        links := pcb.links.link (some seg) us.head?, unsent := pcb.unacked,
        unacked := none } := by
      simp only [tcpRexmitRtoPrepare, hlast, hu, hbusy, h.unsent.head_eq]
      cases us <;> rfl
    rw [hprepare]
    refine ⟨ua ++ us, [], h.of_perm { hjoin with head_eq := ?_ } ⟨rfl, by simp, trivial⟩ ?_
      rfl rfl rfl rfl rfl⟩
    · rw [h.unacked.head_eq]
      cases ua with
      | nil => cases hu
      | cons i ua => rfl
    · rw [append_nil]
      exact perm_append_comm

end Output

section Write
variable {maxLen : Nat} {base pcb : Pcb} {queue : Option Nat} {pos : Nat} {ns : List Nat}

/-- What `tcp_write_netml` has built of its own list before it appends it. -/
structure Building (base pcb : Pcb) (queue : Option Nat) (pos : Nat) (ns : List Nat) : Prop where
  list : IsQueue pcb.links queue ns
  new : ∀ i ∈ ns, base.fresh ≤ i ∧ i < pcb.fresh
  fresh : base.fresh ≤ pcb.fresh
  frame : ∀ j < base.fresh, (pcb.links.next j = base.links.next j ∧
    pcb.links.prev j = base.links.prev j) ∧ pcb.len j = base.len j
  total : (ns.map pcb.len).sum = pos
  nonempty : ∀ i ∈ ns, 0 < pcb.len i
  owed : pcb.owed = base.owed ++ ns
  unsent : pcb.unsent = base.unsent
  unacked : pcb.unacked = base.unacked
  sndBuf : pcb.sndBuf = base.sndBuf
  alive : pcb.crashed = base.crashed

theorem createSegment_links {prevSeg : Option Nat} (seqno seglen : Nat)
    (hne : prevSeg ≠ some pcb.fresh) :
    (createSegment pcb seqno seglen prevSeg).links =
      insertLinks pcb.links prevSeg none pcb.fresh := by
  cases prevSeg with
  | none => rfl
  | some p =>
    apply insertLinks_last
    rintro rfl
    exact hne rfl

theorem Building.create (h : Building base pcb queue pos ns) (seqno : Nat) {seglen : Nat}
    (hpos : 0 < seglen) :
    Building base (createSegment pcb seqno seglen ns.getLast?) (queue.or (some pcb.fresh))
      (pos + seglen) (ns ++ [pcb.fresh]) := by
  have hnew : pcb.fresh ∉ ns := by
    intro hmem
    have := (h.new _ hmem).2
    omega
  have hlast : ns.getLast? ≠ some pcb.fresh := by
    intro heq
    exact hnew (mem_of_getLast? heq)
  have hlinks := createSegment_links seqno seglen hlast
  have hlen : ∀ i, i ≠ pcb.fresh →
      (createSegment pcb seqno seglen ns.getLast?).len i = pcb.len i := by
    intro i hi
    simp [createSegment, hi]
  have hself : (createSegment pcb seqno seglen ns.getLast?).len pcb.fresh = seglen := by
    simp [createSegment]
  have hold : ∀ i ∈ ns, (createSegment pcb seqno seglen ns.getLast?).len i = pcb.len i := by
    intro i hi
    exact hlen i (by rintro rfl; exact hnew hi)
  have hlist := h.list
  rw [← append_nil ns] at hlist hnew
  refine ⟨?_, ?_, ?_, ?_, ?_, ?_, ?_, h.unsent, h.unacked, h.sndBuf, h.alive⟩
  · rw [hlinks]
    refine { insertLinks_queue hlist hnew with head_eq := ?_ }
    rw [h.list.head_eq]
    cases ns <;> rfl
  · intro i hi
    change base.fresh ≤ i ∧ i < pcb.fresh + 1
    rcases mem_append.mp hi with hi | hi
    · have := h.new i hi
      omega
    · rw [mem_singleton.mp hi]
      have := h.fresh
      omega
  · exact Nat.le_succ_of_le h.fresh
  · intro j hj
    have hfresh := h.fresh
    have hne : j ≠ pcb.fresh := by omega
    obtain ⟨⟨hnext, hprev⟩, hl⟩ := h.frame j hj
    have hnot : j ∉ pcb.fresh :: (ns ++ []) := by
      rw [append_nil, mem_cons, not_or]
      refine ⟨hne, fun hmem => ?_⟩
      have := (h.new j hmem).1
      omega
    obtain ⟨hnext', hprev'⟩ := insertLinks_frame (m := pcb.links) hnot
    rw [hlinks, hlen j hne]
    exact ⟨⟨hnext'.trans hnext, hprev'.trans hprev⟩, hl⟩
  · rw [map_append, sum_append, map_congr_left hold, h.total]
    simp [hself]
  · intro i hi
    rcases mem_append.mp hi with hi | hi
    · rw [hold i hi]
      exact h.nonempty i hi
    · rw [mem_singleton.mp hi, hself]
      exact hpos
  · change pcb.owed ++ [pcb.fresh] = _
    rw [h.owed, append_assoc]

theorem createSegments_spec {len fuel : Nat} {prevSeg : Option Nat} (hmax : 0 < maxLen)
    (h : Building base pcb queue pos ns) (hpos : pos ≤ len) (hfuel : len - pos ≤ fuel)
    (hlast : prevSeg = ns.getLast?) :
    ∃ ns', Building base (createSegments len maxLen fuel pos pcb queue prevSeg).1
      (createSegments len maxLen fuel pos pcb queue prevSeg).2 len ns' := by
  induction fuel generalizing pos pcb queue ns prevSeg with
  | zero =>
    have heq : pos = len := by omega
    subst heq
    exact ⟨ns, h⟩
  | succ fuel ih =>
    by_cases hlt : pos < len
    · subst hlast
      have hseglen : 0 < min (len - pos) maxLen := by omega
      have hnext := h.create (pcb.sndLbb + pos) hseglen
      rw [createSegments, if_pos hlt]
      exact ih hnext (by omega) (by omega) (by simp)
    · have heq : pos = len := by omega
      subst heq
      rw [createSegments, if_neg hlt]
      exact ⟨ns, h⟩

theorem Queued.write {tcpSndBuf len : Nat} {us ua : List Nat} (h : Queued tcpSndBuf pcb us ua)
    (hlen : len ≤ pcb.sndBuf) (hmax : 0 < maxLen) (hempty : us = []) :
    ∃ us' ua', Queued tcpSndBuf (tcpWriteNetml pcb len maxLen) us' ua' := by
  subst hempty
  have hlast : last pcb pcb.unsent = none := last_eq h.unsent (Nat.zero_le _)
  have hstart : Building pcb pcb none 0 [] :=
    ⟨⟨rfl, by simp, trivial⟩, by simp, Nat.le_refl _, fun j _ => ⟨⟨rfl, rfl⟩, rfl⟩, rfl, by simp,
      by simp, rfl, rfl, rfl, rfl⟩
  obtain ⟨ns, built⟩ := createSegments_spec hmax hstart (Nat.zero_le len) (Nat.le_refl _) rfl
  rcases hcreate : createSegments len maxLen len 0 pcb none none with ⟨pcb', queue⟩
  change Building pcb (createSegments len maxLen len 0 pcb none none).1
    (createSegments len maxLen len 0 pcb none none).2 len ns at built
  rw [hcreate] at built
  dsimp only at built
  have hwrite : tcpWriteNetml pcb len maxLen = { pcb' with
      unsent := queue, sndLbb := (pcb'.sndLbb + len) % 2 ^ 32, sndBuf := pcb'.sndBuf - len } := by
    simp only [tcpWriteNetml, hlast, hcreate]
  have hua : ∀ i ∈ ua, i < pcb.fresh := by
    intro i hi
    exact h.allocated i (by simpa using hi)
  have hualen : ua.map pcb'.len = ua.map pcb.len := by
    apply map_congr_left
    intro i hi
    exact (built.frame i (hua i hi)).2
  rw [hwrite]
  refine ⟨ns, ua, ⟨built.list, ?_, ?_, ?_⟩, ?_, ?_, ?_, ?_⟩
  · rw [built.unacked]
    refine h.unacked.congr ?_
    intro i hi
    exact (built.frame i (hua i hi)).1
  · intro i hi hi'
    have := (built.new i hi).1
    have := hua i hi'
    omega
  · intro i hi
    have hfresh := built.fresh
    change i < pcb'.fresh
    rcases mem_append.mp hi with hi | hi
    · exact (built.new i hi).2
    · have := hua i hi
      omega
  · intro i hi
    rcases mem_append.mp hi with hi | hi
    · exact built.nonempty i hi
    · rw [(built.frame i (hua i hi)).2]
      exact h.nonempty i (by simpa using hi)
  · intro i hi
    rw [built.owed] at hi
    rcases mem_append.mp hi with hi | hi
    · exact mem_append_right _ (by simpa using h.owed i hi)
    · exact mem_append_left _ hi
  · have hbuffer := h.buffer
    have htotal := built.total
    change pcb'.sndBuf - len + ((ns ++ ua).map pcb'.len).sum = tcpSndBuf
    rw [map_append, sum_append, hualen, built.sndBuf]
    rw [nil_append] at hbuffer
    omega
  · exact built.alive.trans h.alive

theorem Queued.write_zero {tcpSndBuf : Nat} {us ua : List Nat} (h : Queued tcpSndBuf pcb us ua)
    (hne : us ≠ []) : ∃ us' ua', Queued tcpSndBuf (tcpWriteNetml pcb 0 maxLen) us' ua' := by
  have hlength := h.length_le
  have hlast := last_eq h.unsent (by omega)
  obtain ⟨l, p, rfl⟩ : ∃ l p, us = l ++ [p] := by
    rcases eq_nil_or_concat us with rfl | ⟨l, p, rfl⟩
    · exact absurd rfl hne
    · exact ⟨l, p, concat_eq_append⟩
  -- The last segment's `next` is null already.
  have hnext : pcb.links.next p = none := (between_split.mp h.unsent.between).2.2.1
  have hlinks : pcb.links.setNext p none = pcb.links := by
    rw [Links.setNext, ← hnext, update_eq_self]
  refine ⟨l ++ [p], ua, h.of_perm ?_ ?_ (List.Perm.refl _) ?_ ?_ ?_ ?_ ?_⟩
  all_goals simp only [tcpWriteNetml, hlast, getLast?_concat, createSegments, hlinks]
  · exact h.unsent
  · exact h.unacked
  · rfl

end Write

section Acknowledgement
variable {fuel : Nat} {q : Option Nat} {pcb : Pcb} {us ua a b : List Nat} {seg : Nat}
  {busy : Nat → Bool}

/-- Only the pointers and the retransmission marks of the two blocks differ. -/
structure SameData (pcb t : Pcb) : Prop where
  seqno : t.seqno = pcb.seqno
  len : t.len = pcb.len
  fresh : t.fresh = pcb.fresh
  owed : t.owed = pcb.owed
  sndBuf : t.sndBuf = pcb.sndBuf
  crashed : t.crashed = pcb.crashed

theorem SameData.refl (pcb : Pcb) : SameData pcb pcb := by constructor <;> rfl

theorem SameData.trans {s t u : Pcb} (h : SameData s t) (h' : SameData t u) : SameData s u := by
  constructor
  · exact h'.seqno.trans h.seqno
  · exact h'.len.trans h.len
  · exact h'.fresh.trans h.fresh
  · exact h'.owed.trans h.owed
  · exact h'.sndBuf.trans h.sndBuf
  · exact h'.crashed.trans h.crashed

theorem Lists.not_mem_rest (h : Lists pcb us (a ++ seg :: b)) : seg ∉ us ++ (a ++ b) := by
  have hperm : (us ++ (a ++ seg :: b)).Perm (seg :: (us ++ (a ++ b))) :=
    (perm_middle.append_left us).trans perm_middle
  exact (nodup_cons.mp (hperm.nodup_iff.mp h.nodup)).1

theorem removeFromUnack_spec (h : Lists pcb us (a ++ seg :: b)) :
    Lists (removeFromUnack pcb seg) us (a ++ b) ∧ SameData pcb (removeFromUnack pcb seg) ∧
      (removeFromUnack pcb seg).hasresent = pcb.hasresent ∧
      (removeFromUnack pcb seg).links.prev seg = a.getLast? := by
  have hseg : seg ∉ a ++ b := fun hmem => h.not_mem_rest (mem_append_right us hmem)
  have hsub : (a ++ b) <+ a ++ seg :: b := (sublist_cons_self seg b).append_left a
  obtain ⟨-, hprev, -, -⟩ := between_split.mp h.unacked.between
  refine ⟨⟨?_, removeFrom_queue h.unacked, ?_, ?_⟩, by constructor <;> rfl, rfl, ?_⟩
  · refine h.unsent.congr ?_
    intro i hi
    apply removeFrom_frame h.unacked
    intro hmem
    exact h.disjoint i hi (hsub.subset hmem)
  · intro i hi hmem
    exact h.disjoint i hi (hsub.subset hmem)
  · intro i hi
    exact h.allocated i ((hsub.append_left us).subset hi)
  · exact (removeFrom_frame h.unacked hseg).2.trans hprev

theorem removeFromUnsent_spec (h : Lists pcb (a ++ seg :: b) ua) :
    Lists (removeFromUnsent pcb seg) (a ++ b) ua ∧ SameData pcb (removeFromUnsent pcb seg) ∧
      (removeFromUnsent pcb seg).hasresent = pcb.hasresent := by
  have hsub : (a ++ b) <+ a ++ seg :: b := (sublist_cons_self seg b).append_left a
  refine ⟨⟨removeFrom_queue h.unsent, ?_, ?_, ?_⟩, by constructor <;> rfl, rfl⟩
  · refine h.unacked.congr ?_
    intro i hi
    apply removeFrom_frame h.unsent
    intro hmem
    exact h.disjoint i (hsub.subset hmem) hi
  · intro i hi
    exact h.disjoint i (hsub.subset hi)
  · intro i hi
    exact h.allocated i ((hsub.append_right ua).subset hi)

/-- Put `seg` behind the earlier segments at the front. -/
def insertSorted (pcb : Pcb) (us : List Nat) (seg : Nat) : List Nat :=
  us.takeWhile (fun i => pcb.before i seg) ++ seg :: us.dropWhile (fun i => pcb.before i seg)

theorem insertSorted_eq {u₁ u₂ : List Nat} (h₁ : ∀ i ∈ u₁, pcb.before i seg = true)
    (h₂ : ∀ i ∈ u₂.head?, pcb.before i seg = false) :
    insertSorted pcb (u₁ ++ u₂) seg = u₁ ++ seg :: u₂ := by
  have hend : u₂.takeWhile (fun i => pcb.before i seg) = [] ∧
      u₂.dropWhile (fun i => pcb.before i seg) = u₂ := by
    cases u₂ with
    | nil => exact ⟨rfl, rfl⟩
    | cons i u₂ => simp [h₂ i rfl]
  rw [insertSorted, takeWhile_append_of_pos h₁, dropWhile_append_of_pos h₁, hend.1,
    hend.2, append_nil]

theorem insertSorted_perm (pcb : Pcb) (us : List Nat) (seg : Nat) :
    (insertSorted pcb us seg).Perm (seg :: us) := by
  have hperm : (insertSorted pcb us seg).Perm (seg :: (us.takeWhile (fun i => pcb.before i seg) ++
      us.dropWhile (fun i => pcb.before i seg))) := perm_middle
  rwa [takeWhile_append_dropWhile] at hperm

theorem tcpRexmitData_eq (h : IsQueue pcb.links pcb.unsent us) (hfuel : us.length ≤ pcb.fresh)
    (hus : seg ∉ us) :
    ∃ u₁ u₂, us = u₁ ++ u₂ ∧ insertSorted pcb us seg = u₁ ++ seg :: u₂ ∧
      tcpRexmitData pcb seg false = { pcb with
        hasresent := update pcb.hasresent seg true
        links := insertLinks pcb.links u₁.getLast? u₂.head? seg
        unsent := headAfter u₁.getLast? pcb.unsent (some seg) } := by
  obtain ⟨u₁, u₂, rfl, hfound, hbefore, hnot⟩ := place_eq h hfuel seg
  have hplace : place { pcb with hasresent := update pcb.hasresent seg true } pcb.unsent seg =
      (u₁.getLast?, u₂.head?) := hfound
  refine ⟨u₁, u₂, rfl, insertSorted_eq hbefore hnot, ?_⟩
  have hhead := h.head_eq
  cases hunsent : pcb.unsent with
  | none =>
    rw [hunsent] at hhead
    obtain ⟨rfl, rfl⟩ := append_eq_nil_iff.mp (head?_eq_none_iff.mp hhead.symm)
    simp [tcpRexmitData, hunsent, insertLinks, Links.link, headAfter]
  | some first =>
    rw [hunsent] at hplace hhead
    cases u₂ with
    | cons cur u₂ =>
      have hne : seg ≠ cur := by
        rintro rfl
        exact hus (by simp)
      have hprev := (between_split.mp h.between).2.1
      simp [tcpRexmitData, hunsent, hplace, insertBefore_eq hne _ hprev]
    | nil =>
      cases hlast : u₁.getLast? with
      | none =>
        rw [getLast?_eq_none_iff.mp hlast] at hhead
        cases hhead
      | some p =>
        have hne : p ≠ seg := by
          rintro rfl
          exact hus (mem_append_left _ (mem_of_getLast? hlast))
        simp [tcpRexmitData, hunsent, hplace, hlast, store, headAfter, insertLinks_last hne]

/-- `tcp_rexmit_data` puts a segment that is not busy into `unsent`. -/
theorem tcpRexmitData_spec (h : Lists pcb us ua) (hseg : seg ∉ us ++ ua) (hlt : seg < pcb.fresh) :
    Lists (tcpRexmitData pcb seg false) (insertSorted pcb us seg) ua ∧
      SameData pcb (tcpRexmitData pcb seg false) ∧
      (tcpRexmitData pcb seg false).hasresent = update pcb.hasresent seg true := by
  have hus : seg ∉ us := fun hi => hseg (mem_append_left _ hi)
  have hua : seg ∉ ua := fun hi => hseg (mem_append_right _ hi)
  have hlength := h.length_le
  have hsub := fun i => (insertSorted_perm pcb us seg).mem_iff (a := i).trans mem_cons
  obtain ⟨u₁, u₂, rfl, hsorted, hdata⟩ := tcpRexmitData_eq h.unsent (by omega) hus
  rw [hdata]
  refine ⟨⟨hsorted ▸ insertLinks_queue h.unsent hus, h.unacked.congr ?_, ?_, ?_⟩,
    by constructor <;> rfl, rfl⟩
  · intro j hj
    apply insertLinks_frame
    intro hmem
    rcases mem_cons.mp hmem with rfl | hmem
    · exact hua hj
    · exact h.disjoint j hmem hj
  · intro i hi
    rcases (hsub i).mp hi with rfl | hi
    · exact hua
    · exact h.disjoint i hi
  · intro i hi
    rcases mem_append.mp hi with hi | hi
    · rcases (hsub i).mp hi with rfl | hi
      · exact hlt
      · exact h.allocated i (mem_append_left _ hi)
    · exact h.allocated i (mem_append_right _ hi)

theorem rexmitPrevious_none (fuel : Nat) : rexmitPrevious busy fuel pcb none = pcb := by
  cases fuel <;> rfl

/-- The walk passes over segments that were retransmitted before. -/
theorem rexmitPrevious_skip {l₂ : List Nat} (busy : Nat → Bool) (l₁ : List Nat) (fuel : Nat)
    (h : Between pcb.links none (l₁ ++ l₂) q) (hresent : ∀ i ∈ l₂, pcb.hasresent i = true) :
    rexmitPrevious busy (fuel + l₂.length) pcb (l₁ ++ l₂).getLast? =
      rexmitPrevious busy fuel pcb l₁.getLast? := by
  induction l₂ using reverseRecOn generalizing q with
  | nil => simp
  | append_singleton l₂ i ih =>
    rw [← append_assoc] at h ⊢
    obtain ⟨hrest, hprev, -⟩ := between_append.mp h
    rw [Option.or_none] at hprev
    have hi : pcb.hasresent i = true := hresent i (by simp)
    have hfuel : fuel + (l₂ ++ [i]).length = fuel + l₂.length + 1 := by
      simp [Nat.add_assoc]
    rw [hfuel, getLast?_concat]
    simp only [rexmitPrevious, hi, if_true, hprev]
    apply ih hrest
    intro j hj
    exact hresent j (mem_append_left _ hj)

/-- The loop over `unsent` stops at the first segment that is acknowledged. -/
theorem ackUnsent_cases (h : Lists pcb us ua) (ackno : Nat) :
    ((∀ i ∈ us, pcb.ackno i ≠ ackno) ∧ ackUnsent pcb ackno = (pcb, 0)) ∨
      ∃ a seg b, us = a ++ seg :: b ∧ (∀ i ∈ a, pcb.ackno i ≠ ackno) ∧ pcb.ackno seg = ackno ∧
        ackUnsent pcb ackno = (removeFromUnsent pcb seg, pcb.len seg) := by
  have hlength := h.length_le
  obtain ⟨a, b, rfl, hfind, ha, hb⟩ := find_spec (fun i => decide (pcb.ackno i = ackno))
    h.unsent.between (by omega : us.length ≤ pcb.fresh) none
  rw [← h.unsent.head_eq] at hfind
  have hnone : ∀ i ∈ a, pcb.ackno i ≠ ackno := by
    intro i hi
    exact of_decide_eq_false (ha i hi)
  cases b with
  | nil =>
    left
    rw [append_nil]
    exact ⟨hnone, by simp [ackUnsent, hfind]⟩
  | cons seg b =>
    right
    exact ⟨a, seg, b, rfl, hnone, of_decide_eq_true (hb seg rfl), by simp [ackUnsent, hfind]⟩

theorem ackUnsent_spec (h : Lists pcb us ua) (ackno : Nat) :
    ∃ gone us', us' = us.eraseP (fun i => pcb.ackno i = ackno) ∧ us.Perm (gone ++ us') ∧
      (∀ i ∈ gone, pcb.ackno i = ackno) ∧
      (ackUnsent pcb ackno).2 = (gone.map pcb.len).sum ∧
      Lists (ackUnsent pcb ackno).1 us' ua ∧ SameData pcb (ackUnsent pcb ackno).1 ∧
      (ackUnsent pcb ackno).1.hasresent = pcb.hasresent := by
  rcases ackUnsent_cases h ackno with ⟨hnone, hack⟩ | ⟨a, seg, b, rfl, hnone, hseg, hack⟩
  · rw [hack]
    refine ⟨[], us, ?_, List.Perm.refl _, by simp, rfl, h, SameData.refl pcb, rfl⟩
    rw [eraseP_of_forall_not (by simpa using hnone)]
  obtain ⟨hlists, hsame, hmarks⟩ := removeFromUnsent_spec h
  rw [hack]
  refine ⟨[seg], a ++ b, ?_, perm_middle, ?_, by simp, hlists, hsame, hmarks⟩
  · rw [eraseP_append_right _ (by simpa using hnone)]
    simp [hseg]
  · intro i hi
    rw [mem_singleton.mp hi]
    exact hseg

/-- The segment an acknowledgement makes the code retransmit: the last one before the
acknowledged segment that was not retransmitted yet. -/
def overtaken (pcb : Pcb) (ua : List Nat) (ackno : Nat) : Option Nat :=
  if ua.any (fun i => pcb.ackno i = ackno) then
    (ua.takeWhile (fun i => pcb.ackno i ≠ ackno)).reverse.find? (fun i => !pcb.hasresent i)
  else none

/-- Retransmission of this segment is harmless: the driver does not use it, and the
unsent segments in front of its place, where the walk goes on, were all
retransmitted before. -/
def MayRexmit (pcb : Pcb) (us : List Nat) (busy : Nat → Bool) (seg : Nat) : Prop :=
  busy seg = false ∧ ∀ i ∈ us.takeWhile (fun i => pcb.before i seg), pcb.hasresent i = true

instance (pcb : Pcb) (us : List Nat) (busy : Nat → Bool) (seg : Nat) :
    Decidable (MayRexmit pcb us busy seg) :=
  inferInstanceAs (Decidable (_ ∧ _))

/-- Nothing happens if everything in front was retransmitted before. -/
theorem rexmitPrevious_resent {l : List Nat} (h : Between pcb.links none l q)
    (hfuel : l.length ≤ fuel) (hresent : ∀ i ∈ l, pcb.hasresent i = true) :
    rexmitPrevious busy fuel pcb l.getLast? = pcb := by
  have hskip := rexmitPrevious_skip busy [] (fuel - l.length) h hresent
  rwa [Nat.sub_add_cancel hfuel, nil_append, getLast?_nil, rexmitPrevious_none] at hskip

/-- The walk gets to the last segment that was not retransmitted. -/
theorem rexmitPrevious_reach {l₁ l₂ : List Nat} (h : Between pcb.links none (l₁ ++ seg :: l₂) q)
    (hfuel : l₂.length ≤ fuel) (hresent : ∀ i ∈ l₂, pcb.hasresent i = true) :
    rexmitPrevious busy fuel pcb (l₁ ++ seg :: l₂).getLast? =
      rexmitPrevious busy (fuel - l₂.length) pcb (some seg) := by
  have hsplit : l₁ ++ seg :: l₂ = (l₁ ++ [seg]) ++ l₂ := by simp
  have hskip :=
    rexmitPrevious_skip busy (l₁ ++ [seg]) (fuel - l₂.length) (by rwa [← hsplit]) hresent
  rwa [Nat.sub_add_cancel hfuel, ← hsplit, getLast?_concat] at hskip

theorem rexmitPrevious_last {a₁ a₂ : List Nat} (busy : Nat → Bool)
    (h : Lists pcb us (a₁ ++ seg :: a₂ ++ b))
    (hfuel : us.length + (a₁ ++ seg :: a₂).length + 1 ≤ fuel)
    (hresent : ∀ i ∈ a₂, pcb.hasresent i = true) :
    ∃ fuel', us.length < fuel' ∧ rexmitPrevious busy fuel pcb (a₁ ++ seg :: a₂).getLast? =
      rexmitPrevious busy (fuel' + 1) pcb (some seg) := by
  simp only [length_append, length_cons] at hfuel
  refine ⟨fuel - a₂.length - 1, by omega, ?_⟩
  rw [Nat.sub_add_cancel (by omega)]
  exact rexmitPrevious_reach (between_append.mp h.unacked.between).1 (by omega) hresent

theorem exists_split_of_find {P : Nat → Bool} (hfind : a.reverse.find? (fun i => !P i) = some seg) :
    P seg = false ∧ ∃ a₁ a₂, a = a₁ ++ seg :: a₂ ∧ ∀ i ∈ a₂, P i = true := by
  obtain ⟨hnot, after, before, hsplit, hafter⟩ := find?_eq_some_iff_append.mp hfind
  refine ⟨by simpa using hnot, before.reverse, after.reverse, ?_, ?_⟩
  · rw [← reverse_reverse a, hsplit]
    simp
  · intro i hi
    simpa using hafter i (mem_reverse.mp hi)

/-- A segment that is not busy goes to `unsent`, and the walk goes on in front of it there. -/
theorem rexmitPrevious_move (h : Lists pcb us (a ++ seg :: b)) (hresent : pcb.hasresent seg = false)
    (hbusy : busy seg = false) (fuel : Nat) :
    ∃ t, Lists t (insertSorted pcb us seg) (a ++ b) ∧ SameData pcb t ∧
      t.hasresent = update pcb.hasresent seg true ∧
      rexmitPrevious busy (fuel + 1) pcb (some seg) =
        rexmitPrevious busy fuel t (us.takeWhile fun i => pcb.before i seg).getLast? := by
  obtain ⟨hlists, hsame, hmarks, -⟩ := removeFromUnack_spec h
  have hlt := h.allocated seg (by simp)
  obtain ⟨hlists', hsame', hmarks'⟩ :=
    tcpRexmitData_spec hlists h.not_mem_rest (by rw [hsame.fresh]; exact hlt)
  have hbefore : (removeFromUnack pcb seg).before = pcb.before := rfl
  rw [insertSorted, hbefore] at hlists'
  obtain ⟨-, hprev, -, -⟩ := between_split.mp hlists'.unsent.between
  refine ⟨_, hlists', hsame.trans hsame', ?_, ?_⟩
  · rw [hmarks', hmarks]
  · simp only [rexmitPrevious, hresent, Bool.false_eq_true, if_false, hbusy, hprev]

/-- If that is harmless, the walk moves this segment only. -/
theorem rexmitPrevious_one {a₁ a₂ : List Nat} (h : Lists pcb us (a₁ ++ seg :: a₂ ++ b))
    (hfuel : us.length + (a₁ ++ seg :: a₂).length + 1 ≤ fuel) (hfalse : pcb.hasresent seg = false)
    (hresent : ∀ i ∈ a₂, pcb.hasresent i = true) (hmay : MayRexmit pcb us busy seg) :
    Lists (rexmitPrevious busy fuel pcb (a₁ ++ seg :: a₂).getLast?) (insertSorted pcb us seg)
        (a₁ ++ (a₂ ++ b)) ∧
      SameData pcb (rexmitPrevious busy fuel pcb (a₁ ++ seg :: a₂).getLast?) ∧
      (rexmitPrevious busy fuel pcb (a₁ ++ seg :: a₂).getLast?).hasresent =
        update pcb.hasresent seg true := by
  obtain ⟨hbusy, hearlier⟩ := hmay
  obtain ⟨fuel', hfuel', hlast⟩ := rexmitPrevious_last busy h hfuel hresent
  rw [append_assoc, cons_append] at h
  obtain ⟨t, hlists, hsame, hmarks, hmove⟩ := rexmitPrevious_move h hfalse hbusy fuel'
  have hfront : (us.takeWhile fun i => pcb.before i seg).length ≤ us.length :=
    (takeWhile_sublist _).length_le
  -- in front of its place in `unsent` everything was retransmitted as well
  have hwalk : rexmitPrevious busy fuel' t
      (us.takeWhile fun i => pcb.before i seg).getLast? = t := by
    apply rexmitPrevious_resent (between_append.mp hlists.unsent.between).1 (by omega)
    intro i hi
    have hne : i ≠ seg := by
      rintro rfl
      exact h.disjoint i ((takeWhile_sublist _).subset hi) (by simp)
    rw [hmarks, update_of_ne hne]
    exact hearlier i hi
  rw [hlast, hmove, hwalk]
  exact ⟨hlists, hsame, hmarks⟩

/-- The walk moves at most one segment to `unsent`. -/
theorem rexmitPrevious_spec (h : Lists pcb us (a ++ b)) (hfuel : us.length + a.length + 1 ≤ fuel)
    (hrexmit : ∀ seg ∈ a.reverse.find? (fun i => !pcb.hasresent i), MayRexmit pcb us busy seg) :
    ∃ us' ua', Lists (rexmitPrevious busy fuel pcb a.getLast?) us' ua' ∧
      (us' ++ ua').Perm (us ++ (a ++ b)) ∧
      SameData pcb (rexmitPrevious busy fuel pcb a.getLast?) := by
  cases hfind : a.reverse.find? (fun i => !pcb.hasresent i) with
  | none =>
    have hresent : ∀ i ∈ a, pcb.hasresent i = true := by
      simpa using find?_eq_none.mp hfind
    rw [rexmitPrevious_resent (between_append.mp h.unacked.between).1 (by omega) hresent]
    exact ⟨us, a ++ b, h, List.Perm.refl _, SameData.refl pcb⟩
  | some seg =>
    obtain ⟨hfalse, a₁, a₂, rfl, hresent⟩ := exists_split_of_find hfind
    obtain ⟨hlists, hsame, -⟩ := rexmitPrevious_one h hfuel hfalse hresent (hrexmit seg hfind)
    refine ⟨_, _, hlists, ?_, hsame⟩
    calc (insertSorted pcb us seg ++ (a₁ ++ (a₂ ++ b))).Perm (seg :: us ++ (a₁ ++ (a₂ ++ b))) :=
          (insertSorted_perm pcb us seg).append_right _
      _ |>.Perm (us ++ seg :: (a₁ ++ (a₂ ++ b))) := perm_middle.symm
      _ |>.Perm (us ++ (a₁ ++ seg :: a₂ ++ b)) := by
        rw [append_assoc a₁, cons_append]
        exact perm_middle.symm.append_left _

/-- The loop over `unacked` stops at the first segment that is acknowledged as well, and
looks at those in front of it. -/
theorem ackUnacked_cases (h : Lists pcb us ua) (ackno : Nat) (busy : Nat → Bool) :
    ((∀ i ∈ ua, pcb.ackno i ≠ ackno) ∧ ackUnacked pcb ackno busy = (pcb, 0)) ∨
      ∃ a seg b fuel, ua = a ++ seg :: b ∧ (∀ i ∈ a, pcb.ackno i ≠ ackno) ∧
        pcb.ackno seg = ackno ∧ us.length + a.length + 1 ≤ fuel ∧
        ackUnacked pcb ackno busy =
          (rexmitPrevious busy fuel (removeFromUnack pcb seg) a.getLast?, pcb.len seg) := by
  have hlength := h.length_le
  obtain ⟨a, b, rfl, hfind, ha, hb⟩ := find_spec (fun i => decide (pcb.ackno i = ackno))
    h.unacked.between (by omega : ua.length ≤ pcb.fresh) none
  rw [← h.unacked.head_eq] at hfind
  have hnone : ∀ i ∈ a, pcb.ackno i ≠ ackno := by
    intro i hi
    exact of_decide_eq_false (ha i hi)
  cases b with
  | nil =>
    left
    rw [append_nil]
    exact ⟨hnone, by simp [ackUnacked, hfind]⟩
  | cons seg b =>
    right
    obtain ⟨-, -, -, hprev⟩ := removeFromUnack_spec h
    refine ⟨a, seg, b, (pcb.fresh + 1) * (pcb.fresh + 1), rfl, hnone,
      of_decide_eq_true (hb seg rfl), ?_, by simp [ackUnacked, hfind, hprev]⟩
    have : pcb.fresh + 1 ≤ (pcb.fresh + 1) * (pcb.fresh + 1) :=
      Nat.le_mul_of_pos_right _ (Nat.succ_pos _)
    simp only [length_append, length_cons] at hlength
    omega

theorem overtaken_eq {ackno : Nat} (ha : ∀ i ∈ a, pcb.ackno i ≠ ackno)
    (hseg : pcb.ackno seg = ackno) :
    overtaken pcb (a ++ seg :: b) ackno = a.reverse.find? (fun i => !pcb.hasresent i) := by
  have hany : (a ++ seg :: b).any (fun i => decide (pcb.ackno i = ackno)) = true := by
    simp [hseg]
  have htake : (a ++ seg :: b).takeWhile (fun i => decide (pcb.ackno i ≠ ackno)) = a := by
    rw [takeWhile_append_of_pos (by simpa using ha)]
    simp [hseg]
  rw [overtaken, if_pos hany, htake]

theorem ackUnacked_spec (h : Lists pcb us ua) (ackno : Nat)
    (hrexmit : ∀ seg ∈ overtaken pcb ua ackno, MayRexmit pcb us busy seg) :
    ∃ gone us' ua', (us ++ ua).Perm (gone ++ (us' ++ ua')) ∧
      (∀ i ∈ gone, pcb.ackno i = ackno) ∧
      (ackUnacked pcb ackno busy).2 = (gone.map pcb.len).sum ∧
      Lists (ackUnacked pcb ackno busy).1 us' ua' ∧
      SameData pcb (ackUnacked pcb ackno busy).1 := by
  rcases ackUnacked_cases h ackno busy with
    ⟨-, hack⟩ | ⟨a, seg, b, fuel, rfl, ha, hseg, hfuel, hack⟩
  · rw [hack]
    exact ⟨[], us, ua, List.Perm.refl _, by simp, rfl, h, SameData.refl pcb⟩
  obtain ⟨hlists, hsame, hmarks, -⟩ := removeFromUnack_spec h
  rw [overtaken_eq ha hseg] at hrexmit
  have hmay : ∀ v ∈ a.reverse.find? (fun i => !(removeFromUnack pcb seg).hasresent i),
      MayRexmit (removeFromUnack pcb seg) us busy v := by
    exact hrexmit
  obtain ⟨us', ua', hlists', hperm, hsame'⟩ := rexmitPrevious_spec hlists hfuel hmay
  rw [hack]
  refine ⟨[seg], us', ua', ?_, ?_, by simp, hlists', hsame.trans hsame'⟩
  · calc (us ++ (a ++ seg :: b)).Perm (us ++ seg :: (a ++ b)) :=
          perm_middle.append_left us
      _ |>.Perm (seg :: (us ++ (a ++ b))) := perm_middle
      _ |>.Perm (seg :: (us' ++ ua')) := hperm.symm.cons seg
  · intro i hi
    rw [mem_singleton.mp hi]
    exact hseg

/-- An acknowledgement frees the segments it names and gives their room back. -/
theorem Queued.ack {tcpSndBuf ackno : Nat} (h : Queued tcpSndBuf pcb us ua)
    (hrexmit : ∀ seg ∈ overtaken pcb ua ackno,
      MayRexmit pcb (us.eraseP fun i => pcb.ackno i = ackno) busy seg) :
    ∃ us' ua', Queued tcpSndBuf (receiveAck pcb ackno busy) us' ua' := by
  obtain ⟨gone, us₁, rfl, hperm, hgone, hacked, hlists, hsame, hmarks⟩ :=
    ackUnsent_spec h.toLists ackno
  rcases hunsent : ackUnsent pcb ackno with ⟨pcb₁, acked⟩
  rw [hunsent] at hacked hlists hsame hmarks
  dsimp only at hacked hlists hsame hmarks
  have hackno : pcb₁.ackno = pcb.ackno := by
    funext i
    rw [Pcb.ackno, Pcb.ackno, hsame.seqno, hsame.len]
  have hmay : ∀ seg ∈ overtaken pcb₁ ua ackno,
      MayRexmit pcb₁ (us.eraseP fun i => pcb.ackno i = ackno) busy seg := by
    intro seg hseg
    rw [overtaken, hackno, hmarks] at hseg
    obtain ⟨hbusy, hearlier⟩ := hrexmit seg hseg
    refine ⟨hbusy, ?_⟩
    simpa only [Pcb.before, hsame.seqno, hmarks] using hearlier
  obtain ⟨gone', us', ua', hperm', hgone', hacked', hlists', hsame'⟩ :=
    ackUnacked_spec hlists ackno hmay
  rcases hunacked : ackUnacked pcb₁ ackno busy with ⟨pcb₂, acked'⟩
  rw [hunacked] at hacked' hlists' hsame'
  rw [hackno] at hgone'
  rw [hsame.len] at hacked'
  have hall := hsame.trans hsame'
  -- Everything queued before is freed now or still queued.
  have htotal : (us ++ ua).Perm (gone ++ gone' ++ (us' ++ ua')) := by
    calc (us ++ ua).Perm (gone ++ us.eraseP _ ++ ua) := hperm.append_right ua
      _ |>.Perm (gone ++ (us.eraseP _ ++ ua)) := by rw [append_assoc]
      _ |>.Perm (gone ++ (gone' ++ (us' ++ ua'))) := hperm'.append_left gone
      _ |>.Perm (gone ++ gone' ++ (us' ++ ua')) := by rw [append_assoc]
  have hsub : ∀ i ∈ us' ++ ua', i ∈ us ++ ua := by
    intro i hi
    exact htotal.mem_iff.mpr (mem_append_right _ hi)
  have hreceive : receiveAck pcb ackno busy = { pcb₂ with
      sndBuf := pcb₂.sndBuf + (acked + acked')
      owed := pcb.owed.filter (fun i => pcb.ackno i ≠ ackno) } := by
    simp [receiveAck, hunsent, hunacked]
  rw [hreceive]
  refine ⟨us', ua', { hlists' with }, ?_, ?_, ?_, ?_⟩
  · intro i hi
    rw [hall.len]
    exact h.nonempty i (hsub i hi)
  · intro i hi
    obtain ⟨howed, hne⟩ := mem_filter.mp hi
    have hne : pcb.ackno i ≠ ackno := of_decide_eq_true hne
    rcases mem_append.mp (htotal.mem_iff.mp (h.owed i howed)) with hi | hi
    · rcases mem_append.mp hi with hi | hi
      · exact absurd (hgone i hi) hne
      · exact absurd (hgone' i hi) hne
    · exact hi
  · have hsum := (htotal.map pcb.len).sum_nat
    have hbuffer := h.buffer
    simp only [map_append, sum_append] at hsum hbuffer
    change pcb₂.sndBuf + (acked + acked') + ((us' ++ ua').map pcb₂.len).sum = tcpSndBuf
    rw [hall.len, hall.sndBuf, map_append, sum_append]
    omega
  · exact hall.crashed.trans h.alive

end Acknowledgement

section Runs
variable {tcpSndBuf : Nat}

/-- The step does none of the things that damage the queues: it does not write behind
unsent segments, does not run over the end of `unacked`, and does not retransmit a
busy segment or one that unsent segments never retransmitted are in front of. -/
def Harmless (pcb : Pcb) : Input → Prop
  | .write len _ => pcb.unsent = none ∨ len = 0
  | .output => ∀ seg ∈ (unsentList pcb).head?, PlaceExists pcb seg (unackedList pcb)
  | .ack ackno busy => ∀ seg ∈ overtaken pcb (unackedList pcb) ackno,
      MayRexmit pcb ((unsentList pcb).eraseP fun i => pcb.ackno i = ackno) busy seg
  | .rtoPrepare _ => True

instance (pcb : Pcb) : (i : Input) → Decidable (Harmless pcb i)
  | .write len _ => inferInstanceAs (Decidable (pcb.unsent = none ∨ len = 0))
  | .output => inferInstanceAs (Decidable (∀ seg ∈ (unsentList pcb).head?, _))
  | .ack ackno _ =>
    inferInstanceAs (Decidable (∀ seg ∈ overtaken pcb (unackedList pcb) ackno, _))
  | .rtoPrepare _ => isTrue trivial

/-- A connection that has not sent anything. -/
def Initial (tcpSndBuf : Nat) (pcb : Pcb) : Prop := ∃ sndLbb, pcb = Pcb.new tcpSndBuf sndLbb

theorem Initial.queued {pcb : Pcb} (h : Initial tcpSndBuf pcb) : Queued tcpSndBuf pcb [] [] := by
  obtain ⟨sndLbb, rfl⟩ := h
  refine ⟨⟨⟨rfl, by simp, trivial⟩, ⟨rfl, by simp, trivial⟩, by simp, by simp⟩,
    by simp, ?_, rfl, rfl⟩
  intro i hi
  cases hi

theorem Queued.step {t pcb : Pcb} {us ua : List Nat} {i : Input} (h : Queued tcpSndBuf pcb us ua)
    (hharmless : Harmless pcb i) (hstep : NetmlSend.step pcb i = some t) :
    ∃ us' ua', Queued tcpSndBuf t us' ua' := by
  have hus := unsentList_eq h.toLists
  have hua := unackedList_eq h.toLists
  simp only [NetmlSend.step, h.alive, Bool.false_eq_true, if_false] at hstep
  cases i with
  | write len maxLen =>
    obtain ⟨⟨hlen, hmax⟩, ⟨⟩⟩ := Option.ite_none_right_eq_some.mp hstep
    by_cases hnil : us = []
    · exact h.write hlen hmax hnil
    have hzero : len = 0 := by
      rcases hharmless with hnone | hzero
      · rw [h.unsent.head_eq] at hnone
        exact absurd (head?_eq_none_iff.mp hnone) hnil
      · exact hzero
    subst hzero
    exact h.write_zero hnil
  | output =>
    cases hstep
    apply h.output
    rw [Harmless, hus, hua] at hharmless
    exact hharmless
  | ack ackno busy =>
    cases hstep
    apply h.ack
    rw [Harmless, hus, hua] at hharmless
    exact hharmless
  | rtoPrepare busy =>
    cases hstep
    exact h.rtoPrepare busy

/-- In every run of harmless steps the queues hang together, hold what is owed, and the
send buffer accounts for them. -/
theorem queued_of_harmless {pcb : Pcb} (h : Reach (Initial tcpSndBuf) Harmless step pcb) :
    ∃ us ua, Queued tcpSndBuf pcb us ua := by
  have base : ∀ s, Initial tcpSndBuf s → ∃ us ua, Queued tcpSndBuf s us ua := by
    intro s hinit
    exact ⟨[], [], hinit.queued⟩
  apply h.invariant base
  rintro s i t ⟨us, ua, hqueued⟩ hharmless hstep
  exact hqueued.step hharmless hstep

/-- Three segments are sent and the one in the middle is acknowledged first. -/
def overtakingRun : List Input :=
  [.write 3 1, .output, .output, .output, .ack 2 fun _ => false, .output,
    .rtoPrepare fun _ => false]

theorem overtakingRun_queued : ∃ pcb, Reach (Initial 10) Harmless step pcb ∧
    (∃ us ua, Queued 10 pcb us ua) ∧ pcb.owed = [0, 2] := by
  refine Reach.of_exec_left (s := Pcb.new 10 0) Harmless step overtakingRun ?_ ⟨0, rfl⟩
    fun pcb hpcb => queued_of_harmless hpcb
  decide +kernel

/-- After two writes in a row the second segment is not linked back to the first. -/
theorem second_write_unlinked : ∃ pcb, Reach (Initial 10) Always step pcb ∧
    ¬ ∃ us ua, Queued 10 pcb us ua := by
  have hrun : ∃ pcb, Reach (Initial 10) Always step pcb ∧
      unsentList pcb = [0, 1] ∧ pcb.links.prev 1 = none := by
    refine Reach.of_exec (s := Pcb.new 10 0) Always step [.write 1 1, .write 1 1] ?_ ⟨0, rfl⟩
    decide +kernel
  obtain ⟨pcb, hreach, hlist, hprev⟩ := hrun
  refine ⟨pcb, hreach, ?_⟩
  rintro ⟨us, ua, h⟩
  have hus : [0, 1] = us := hlist.symm.trans (unsentList_eq h.toLists)
  subst hus
  obtain ⟨-, -, hlinked, -⟩ := h.unsent.between
  rw [hprev] at hlinked
  cases hlinked

end Runs

end Uzmq.NetmlSendQueues
