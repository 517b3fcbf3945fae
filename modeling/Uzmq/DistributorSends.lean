import Uzmq.Distributors
import Uzmq.Runs

/-!
# Sending to the matching pipes

The loop of `distribute` writes to each matching pipe once. A pipe that does not take the
message leaves all regions while the loop goes on with the pipe that has come to its position.
The reference count of a long message goes with the writes that succeed.
-/

namespace Uzmq.Distributors

open Slots List
open Message

variable {Pipe : Type} [DecidableEq Pipe]

omit [DecidableEq Pipe] in
theorem without_of_not {v : View Pipe} {failed : Pipe → Prop} (h : ∀ q, ¬ failed q) :
    v.without failed = v := by
  simp [View.without, h]

section Loop
variable {log : List (Pipe × Bool)} {i : Nat} {pipe : Pipe} {d : Distributor Pipe} {v : View Pipe}
  {ok : Nat → Pipe → Bool}

/-- The loop of `distribute` is about to write to position `i`. -/
structure Writing (ok : Nat → Pipe → Bool) (v : View Pipe) (d : Distributor Pipe) (i : Nat)
    (log : List (Pipe × Bool)) : Prop where
  shows : Shows d (v.without fun q => (q, false) ∈ log)
  le : i ≤ d.matching
  done : ∀ q, d.pipes.index q < i ↔ (q, true) ∈ log
  nodup : (log.map Prod.fst).Nodup
  sub : ∀ x ∈ log, v.matching x.1
  result : ∀ k x, log[k]? = some x → x.2 = ok k x.1

theorem getElem?_snoc {α : Type} {l : List α} {x y : α} {k : Nat} (h : (l ++ [x])[k]? = some y) :
    l[k]? = some y ∨ (k = l.length ∧ y = x) := by
  rw [List.getElem?_append] at h
  split at h
  · exact .inl h
  right
  rw [List.getElem?_singleton] at h
  split at h
  · cases h
    exact ⟨by omega, rfl⟩
  · cases h

section
variable (h : Writing ok v d i log) (hpipe : d.pipes.index pipe = i) (hlt : i < d.matching)
include h hpipe hlt

theorem Writing.new : v.matching pipe ∧ pipe ∉ log.map Prod.fst := by
  have hm := (h.shows.matching pipe).mp (by omega)
  refine ⟨hm.1, ?_⟩
  intro hin
  obtain ⟨⟨q, b⟩, hx, rfl⟩ := mem_map.mp hin
  cases b with
  | false => exact hm.2 hx
  | true =>
    have := (h.done q).mpr hx
    dsimp only at hpipe
    omega

theorem Writing.logged {b : Bool} (hok : ok log.length pipe = b) :
    ((log ++ [(pipe, b)]).map Prod.fst).Nodup ∧ (∀ x ∈ log ++ [(pipe, b)], v.matching x.1) ∧
      ∀ k x, (log ++ [(pipe, b)])[k]? = some x → x.2 = ok k x.1 := by
  obtain ⟨hmatch, hnot⟩ := h.new hpipe hlt
  refine ⟨?_, forall_mem_append.mpr ⟨h.sub, forall_mem_singleton.mpr hmatch⟩, ?_⟩
  · rw [map_append, nodup_append']
    refine ⟨h.nodup, by simp, ?_⟩
    simpa [disjoint_singleton] using hnot
  · intro k x hx
    rcases getElem?_snoc hx with hx | ⟨rfl, rfl⟩
    · exact h.result k x hx
    · exact hok.symm

theorem Writing.success (hok : ok log.length pipe = true) :
    Writing ok v d (i + 1) (log ++ [(pipe, true)]) := by
  obtain ⟨hnodup, hsub, hresult⟩ := h.logged hpipe hlt hok
  have hle := h.shows.matching_le_size
  have hin : pipe ∈ d.pipes.items := index_lt_size_iff.mp (by omega)
  constructor
  · simpa using h.shows
  · omega
  · intro q
    have hdone := h.done q
    rw [mem_append, ← hdone, mem_singleton]
    rcases eq_or_ne q pipe with rfl | hq
    · simp only [or_true, iff_true]
      omega
    have hne : d.pipes.index q ≠ i := by
      intro heq
      exact hq ((index_inj hin).mp (by omega)).symm
    simp only [Prod.mk.injEq, hq, false_and, or_false]
    omega
  · exact hnodup
  · exact hsub
  · exact hresult

theorem Writing.failure (hok : ok log.length pipe = false) :
    ∃ d', d.writeFailed pipe = some d' ∧ Writing ok v d' i (log ++ [(pipe, false)]) ∧
      d'.matching + 1 = d.matching := by
  obtain ⟨-, hnot⟩ := h.new hpipe hlt
  obtain ⟨hnodup, hsub, hresult⟩ := h.logged hpipe hlt hok
  obtain ⟨d', hd', hshows, hcount, hbelow⟩ :=
    h.shows.writeFailed ((h.shows.matching pipe).mp (by omega))
  refine ⟨d', hd', ?_, hcount⟩
  constructor
  · simpa [View.without, not_or, and_assoc] using hshows
  · omega
  · intro q
    rcases eq_or_ne q pipe with rfl | hq
    · have hout : ¬ d'.pipes.index q < i := by
        have := hshows.matching q
        simp only [View.without, not_true_eq_false, and_false, iff_false] at this
        omega
      have hlog : (q, true) ∉ log := fun hx => hnot (mem_map.mpr ⟨_, hx, rfl⟩)
      simp [hout, hlog]
    · rw [hbelow q hq i (by omega), h.done q]
      simp
  · exact hnodup
  · exact hsub
  · exact hresult

end

theorem writeLoop_spec (fuel i : Nat) (d : Distributor Pipe) (log : List (Pipe × Bool))
    (h : Writing ok v d i log) (hfuel : d.matching ≤ i + fuel) :
    ∃ d' log', Distributor.writeLoop ok fuel i d log = some (d', log') ∧
      Writing ok v d' d'.matching log' := by
  induction fuel generalizing i d log with
  | zero =>
    have hle := h.le
    refine ⟨d, log, ?_, ?_⟩
    · rw [Distributor.writeLoop, if_neg (by omega)]
    · rwa [show d.matching = i by omega]
  | succ fuel ih =>
    by_cases hlt : i < d.matching
    · have hle := h.shows.matching_le_size
      obtain ⟨pipe, hin, hpipe⟩ := exists_index (s := d.pipes) (i := i) (by omega)
      have hget : d.pipes.items[i]? = some pipe := (index_eq_iff (by omega)).mp hpipe
      rw [Distributor.writeLoop, if_pos hlt]
      simp only [hget]
      by_cases hok : ok log.length pipe = true
      · rw [if_pos hok]
        exact ih (i + 1) d _ (h.success hpipe hlt hok) (by omega)
      · obtain ⟨d', hd', hwriting, hcount⟩ := h.failure hpipe hlt (by simpa using hok)
        rw [if_neg hok, hd']
        exact ih i d' _ hwriting (by omega)
    · have hle := h.le
      refine ⟨d, log, ?_, ?_⟩
      · rw [Distributor.writeLoop, if_neg hlt]
      · rwa [show d.matching = i by omega]

/-- Every matching pipe is written to once, and those that fail become passive. -/
structure Distributed (ok : Nat → Pipe → Bool) (v : View Pipe) (log : List (Pipe × Bool))
    (d' : Distributor Pipe) : Prop where
  shows : Shows d' (v.without fun q => (q, false) ∈ log)
  nodup : (log.map Prod.fst).Nodup
  mem : ∀ q, q ∈ log.map Prod.fst ↔ v.matching q
  result : ∀ k x, log[k]? = some x → x.2 = ok k x.1

section
variable (h : Shows d v)
include h

theorem Shows.writeLoop (ok : Nat → Pipe → Bool) :
    ∃ d' log, Distributor.writeLoop ok d.matching 0 d [] = some (d', log) ∧
      Distributed ok v log d' := by
  have hstart : Writing ok v d 0 [] := by
    refine ⟨by rwa [without_of_not (by simp)], Nat.zero_le _, ?_, nodup_nil, ?_, ?_⟩
    · intro q
      simp
    · intro x hx
      cases hx
    · intro k x hx
      simp at hx
  obtain ⟨d', log, hd', hwriting⟩ := writeLoop_spec d.matching 0 d [] hstart (by omega)
  refine ⟨d', log, hd', hwriting.shows, hwriting.nodup, ?_, hwriting.result⟩
  intro q
  constructor
  · intro hq
    obtain ⟨x, hx, rfl⟩ := mem_map.mp hq
    exact hwriting.sub x hx
  intro hq
  by_cases hfailed : (q, false) ∈ log
  · exact mem_map.mpr ⟨_, hfailed, rfl⟩
  · have hlt := (hwriting.shows.matching q).mpr ⟨hq, hfailed⟩
    exact mem_map.mpr ⟨_, (hwriting.done q).mp hlt, rfl⟩

/-- There is one write for each pipe of the matching region. -/
theorem Distributed.perm {d' : Distributor Pipe} (hd : Distributed ok v log d') :
    (log.map Prod.fst).Perm (d.pipes.items.take d.matching) := by
  have hle := h.matching_le_size
  rw [perm_ext_iff_of_nodup hd.nodup (d.pipes.nodup.sublist (take_sublist _ _))]
  intro q
  rw [hd.mem, ← h.matching]
  constructor
  · intro hlt
    have hin : q ∈ d.pipes.items := index_lt_size_iff.mp (by omega)
    exact (mem_take_iff_idxOf_lt hin).mpr hlt
  · intro hin
    exact (mem_take_iff_idxOf_lt (mem_of_mem_take hin)).mp hin

theorem Distributed.length {d' : Distributor Pipe} (hd : Distributed ok v log d') :
    log.length = d.matching := by
  have hle := h.matching_le_size
  have hsize : d.pipes.items.length = d.pipes.size := rfl
  have hlength := (hd.perm h).length_eq
  rw [length_map, length_take] at hlength
  omega

/-- What a call that sends to the matching pipes does. -/
structure SendsTo (ok : Nat → Pipe → Bool) (v : View Pipe) (more : Bool)
    (r : Distributor.Sent Pipe) : Prop where
  shows : Shows r.dist ((v.without fun q => (q, false) ∈ r.log).sent more)
  nodup : (r.log.map Prod.fst).Nodup
  mem : ∀ q, q ∈ r.log.map Prod.fst ↔ v.matching q
  result : ∀ k x, r.log[k]? = some x → x.2 = ok k x.1

theorem Shows.sent (more : Bool) :
    Shows { d with active := if more then d.active else d.eligible, more := more }
      (v.sent more) := by
  have hma := h.matching_le
  have hae := h.active_le
  refine ⟨?_, ?_, h.eligible_le, ?_, h.attached, h.matching, ?_, h.eligible, rfl⟩
  · dsimp only
    split <;> omega
  · dsimp only
    split <;> omega
  · intro hmore
    dsimp only at hmore ⊢
    simp [hmore]
  · intro q
    cases more with
    | true => exact h.active q
    | false => exact h.eligible q

theorem Shows.distribute (m : Msg) (c : Content) (ok : Nat → Pipe → Bool) :
    ∃ r, d.distribute m c ok = some r ∧ Distributed ok v r.log r.dist := by
  unfold Distributor.distribute
  by_cases hzero : d.matching = 0
  · have hnone (q : Pipe) : ¬ v.matching q := by
      rw [← h.matching]
      omega
    rw [if_pos hzero]
    refine ⟨_, rfl, by rwa [without_of_not (by simp)], nodup_nil, ?_, ?_⟩
    · intro q
      simp [hnone q]
    · intro k x hx
      simp at hx
  · obtain ⟨d', log, hd', hdist⟩ := h.writeLoop ok
    rw [if_neg hzero, hd']
    dsimp only
    split <;> exact ⟨_, rfl, hdist⟩

theorem Shows.sendToMatching (m : Msg) (c : Content) (ok : Nat → Pipe → Bool) :
    ∃ r, d.sendToMatching m c ok = some r ∧ SendsTo ok v m.flags.more r := by
  obtain ⟨r, hr, hdist⟩ := h.distribute m c ok
  refine ⟨{ r with
      dist := { r.dist with
        active := if m.flags.more then r.dist.active else r.dist.eligible
        more := m.flags.more } }, ?_, ?_, hdist.nodup, hdist.mem, hdist.result⟩
  · rw [Distributor.sendToMatching, hr]
  · exact hdist.shows.sent m.flags.more

theorem Shows.all : Shows { d with matching := d.active } { v with matching := v.active } :=
  { h with matching_le := Nat.le_refl _, matching := h.active }

end

/-- How many messages share the content. -/
def Content.references (c : Content) : Nat :=
  if c.freed then 0 else if c.shared then c.refcnt else 1

section References
variable {m : Msg} {c : Content}
variable (hlong : isLong m = true) (hfreed : c.freed = false)
include hlong hfreed

theorem references_addRefs (k : Nat) :
    (c.addRefs m k).references = c.references + k ∧ (c.addRefs m k).freed = false := by
  unfold Content.addRefs
  by_cases hk : k = 0
  · simp [hk, hfreed]
  cases hshared : c.shared with
  | false =>
    simp only [hk, if_false, hlong, if_true, hshared, Bool.false_eq_true, Content.references,
      hfreed, and_true]
    omega
  | true => simp [hk, hlong, hshared, Content.references, hfreed]

theorem references_close (hpos : 0 < c.references) : (c.close m).references + 1 = c.references := by
  unfold Content.close
  cases hshared : c.shared with
  | false => simp [hlong, hshared, Content.references, hfreed]
  | true =>
    simp only [Content.references, hfreed, hshared, Bool.false_eq_true, if_false, if_true] at hpos ⊢
    by_cases hone : c.refcnt = 1
    · simp [hlong, hone]
    · simp only [hlong, hone, if_true, Bool.true_and, bne_iff_ne, ne_eq, not_false_eq_true,
        Bool.false_eq_true, if_false]
      omega

theorem references_rmRefs (k : Nat) (hk : k ≤ c.references) :
    (c.rmRefs m k).references + k = c.references := by
  unfold Content.rmRefs
  by_cases hzero : k = 0
  · simp [hzero]
  rw [if_neg hzero]
  cases hshared : c.shared with
  | false =>
    have hone : c.references = 1 := by simp [Content.references, hfreed, hshared]
    have hclose := references_close hlong hfreed (by omega)
    simp only [hlong, Bool.and_false, Bool.false_eq_true, if_false]
    omega
  | true =>
    simp only [Content.references, hfreed, hshared, Bool.false_eq_true, if_false, if_true] at hk ⊢
    simp only [hlong, Bool.and_true, if_true]
    split
    · simp only [if_true]
      omega
    · simp only [Bool.false_eq_true, if_false, if_true]
      omega

end References

omit [DecidableEq Pipe] in
theorem countP_add_countP_not (log : List (Pipe × Bool)) :
    (log.countP fun x => x.2) + (log.countP fun x => !x.2) = log.length := by
  induction log with
  | nil => rfl
  | cons x log ih =>
    obtain ⟨q, b⟩ := x
    cases b with
    | false =>
      simp only [countP_cons, length_cons, Bool.false_eq_true, if_false, Bool.not_false, if_true]
      omega
    | true =>
      simp only [countP_cons, length_cons, if_true, Bool.not_true, Bool.false_eq_true, if_false]
      omega

/-- The caller's reference is replaced by one for each successful write. -/
theorem references_distribute (h : Shows d v) {m : Msg} {c : Content} {r : Distributor.Sent Pipe}
    (hlong : isLong m = true) (hfreed : c.freed = false) (hpos : 0 < c.references)
    (hr : d.distribute m c ok = some r) :
    r.content.references + 1 = c.references + r.log.countP fun x => x.2 := by
  have hvsm : m.type ≠ .vsm := by
    intro hvsm
    simp [isLong, hvsm] at hlong
  unfold Distributor.distribute at hr
  by_cases hzero : d.matching = 0
  · rw [if_pos hzero] at hr
    cases hr
    exact references_close hlong hfreed hpos
  obtain ⟨d', log, hd', hdist⟩ := h.writeLoop ok
  have hlength := hdist.length h
  have hsplit := countP_add_countP_not log
  rw [if_neg hzero, hd'] at hr
  dsimp only at hr
  rw [if_neg hvsm] at hr
  cases hr
  obtain ⟨hadd, hkept⟩ := references_addRefs hlong hfreed (d.matching - 1)
  have hrm := references_rmRefs hlong hkept (log.countP fun x => !x.2) (by omega)
  dsimp only
  omega

end Loop

section Runs
variable {pipe : Pipe} {d : Distributor Pipe}

inductive Op (Pipe : Type) where
  | attach (pipe : Pipe)
  | matchPipe (pipe : Pipe)
  | reverseMatch
  | unmatch
  | activated (pipe : Pipe)
  | pipeTerminated (pipe : Pipe)
  | sendToMatching (m : Msg) (c : Content) (ok : Nat → Pipe → Bool)
  | sendToAll (m : Msg) (c : Content) (ok : Nat → Pipe → Bool)

def step (d : Distributor Pipe) : Op Pipe → Option (Distributor Pipe)
  | .attach pipe => d.attach pipe
  | .matchPipe pipe => d.matchPipe pipe
  | .reverseMatch => d.reverseMatch
  | .unmatch => some d.unmatch
  | .activated pipe => d.activated pipe
  | .pipeTerminated pipe => d.pipeTerminated pipe
  | .sendToMatching m c ok => (d.sendToMatching m c ok).map (·.dist)
  | .sendToAll m c ok => (d.sendToAll m c ok).map (·.dist)

/-- Pipes are attached once, and pipes are matched only between messages. -/
def Allowed (d : Distributor Pipe) : Op Pipe → Prop
  | .attach pipe => pipe ∉ d.pipes.items
  | .matchPipe pipe => pipe ∈ d.pipes.items ∧ d.more = false
  | .reverseMatch => d.more = false
  | .activated pipe => pipe ∈ d.pipes.items
  | .pipeTerminated pipe => pipe ∈ d.pipes.items
  | _ => True

instance (d : Distributor Pipe) (op : Op Pipe) : Decidable (Allowed d op) := by
  cases op <;> unfold Allowed <;> infer_instance

structure Ordered (d : Distributor Pipe) : Prop where
  matching_le : d.matching ≤ d.active
  active_le : d.active ≤ d.eligible
  eligible_le : d.eligible ≤ d.pipes.size
  between : d.more = false → d.active = d.eligible

def Distributor.view (d : Distributor Pipe) : View Pipe where
  attached q := q ∈ d.pipes.items
  matching q := d.pipes.index q < d.matching
  active q := d.pipes.index q < d.active
  eligible q := d.pipes.index q < d.eligible
  more := d.more

theorem Ordered.shows (h : Ordered d) : Shows d d.view :=
  ⟨h.matching_le, h.active_le, h.eligible_le, h.between, fun _ => Iff.rfl, fun _ => Iff.rfl,
    fun _ => Iff.rfl, fun _ => Iff.rfl, rfl⟩

theorem Shows.ordered {v : View Pipe} (h : Shows d v) : Ordered d :=
  { h with }

/-- No message is under way, and the pipe gets the next one. -/
structure Linked (d : Distributor Pipe) (pipe : Pipe) : Prop where
  ordered : Ordered d
  more : d.more = false
  eligible : d.pipes.index pipe < d.eligible

/-- A pipe with room is written to and gets the next message, too. -/
theorem Linked.sendToAll {pipe : Pipe} (h : Linked d pipe) {m : Msg} (hmore : m.flags.more = false)
    {c : Content} {ok : Nat → Pipe → Bool} (hok : ∀ k, ok k pipe = true) {r : Distributor.Sent Pipe}
    (hr : d.sendToAll m c ok = some r) : Linked r.dist pipe ∧ (pipe, true) ∈ r.log := by
  obtain ⟨r', hr', hsends⟩ := h.ordered.shows.all.sendToMatching m c ok
  obtain rfl : r' = r := Option.some.inj (hr'.symm.trans hr)
  rw [hmore] at hsends
  have htrue (b : Bool) (hb : (pipe, b) ∈ r'.log) : b = true := by
    obtain ⟨k, hk⟩ := List.getElem?_of_mem hb
    exact (hsends.result k _ hk).trans (hok k)
  have hactive : d.pipes.index pipe < d.active := by
    rw [h.ordered.between h.more]
    exact h.eligible
  obtain ⟨⟨p, b⟩, hlog, rfl⟩ := List.mem_map.mp ((hsends.mem pipe).mpr hactive)
  refine ⟨⟨hsends.shows.ordered, hsends.shows.more, (hsends.shows.eligible p).mpr ?_⟩, ?_⟩
  · exact ⟨h.eligible, fun hfailed => Bool.noConfusion (htrue _ hfailed)⟩
  · rwa [← htrue _ hlog]

/-- What `activated` does, also for a pipe that is eligible already. -/
structure Activates (d : Distributor Pipe) (pipe : Pipe) (d' : Distributor Pipe) : Prop where
  ordered : Ordered d'
  more : d'.more = d.more
  mem : ∀ q, q ∈ d'.pipes.items ↔ q ∈ d.pipes.items
  own : d'.pipes.index pipe < d'.eligible
  eligible : ∀ q, d.pipes.index q < d.eligible → d'.pipes.index q < d'.eligible

section
variable (h : Ordered d) (hin : pipe ∈ d.pipes.items)
include h hin

theorem Ordered.enterEligible :
    ∃ s e, d.enterEligible pipe = some { d with pipes := s, eligible := e } ∧
      s.size = d.pipes.size ∧ (∀ q, q ∈ s.items ↔ q ∈ d.pipes.items) ∧
      e = min (d.eligible + 1) s.size ∧ s.index pipe < e ∧
      ∀ q, d.pipes.index q < d.eligible → s.index q < e := by
  have hle := h.eligible_le
  have hlt := index_lt_size_iff.mpr hin
  unfold Distributor.enterEligible
  split
  · obtain ⟨s, hs⟩ := swap_isSome hlt ‹d.eligible < d.pipes.size›
    have hswap := swapped_of_swap hs
    have hsize := hswap.size
    refine ⟨s, d.eligible + 1, by rw [hs]; rfl, hsize, hswap.mem, by omega, ?_, ?_⟩
    · rw [hswap.index, if_pos rfl]
      omega
    · intro q hq
      rw [hswap.index]
      split
      · omega
      · split <;> omega
  · exact ⟨d.pipes, d.eligible, rfl, rfl, fun _ => Iff.rfl, by omega, by omega, fun _ => id⟩

theorem Ordered.activated : ∃ d', d.activated pipe = some d' ∧ Activates d pipe d' := by
  have hma := h.matching_le
  have hae := h.active_le
  have hle := h.eligible_le
  obtain ⟨s, e, hs, hsize, hmem, he, hown, hrest⟩ := h.enterEligible hin
  unfold Distributor.activated
  rw [hs]
  dsimp only
  split
  · -- The pipe at the end of the eligible ones is the first that is not active.
    rename_i hboth
    have heq := h.between hboth.1
    obtain rfl : e = d.active + 1 := by omega
    obtain ⟨s', hs'⟩ := swap_isSome hboth.2 hboth.2
    have hswap := swapped_of_swap hs'
    have hsize' := hswap.size
    have hsame (q : Pipe) : s'.index q = s.index q := hswap.index_self q
    rw [if_neg (by omega), Nat.add_sub_cancel, hs']
    refine ⟨_, rfl, ⟨?_, Nat.le_refl _, ?_, fun _ => rfl⟩, rfl,
      fun q => (hswap.mem q).trans (hmem q), ?_, ?_⟩
    · dsimp only
      omega
    · dsimp only
      omega
    · rwa [hsame]
    · intro q hq
      rw [hsame]
      exact hrest q hq
  · rename_i hnot
    refine ⟨_, rfl, ⟨hma, ?_, ?_, ?_⟩, rfl, hmem, hown, hrest⟩
    · dsimp only
      omega
    · dsimp only
      omega
    · intro hmore
      have heq := h.between hmore
      have hfull : ¬ d.active < s.size := fun hlt => hnot ⟨hmore, hlt⟩
      dsimp only
      omega

end

theorem Ordered.step (h : Ordered d) (op : Op Pipe) (hop : Allowed d op) :
    ∃ d', step d op = some d' ∧ Ordered d' := by
  cases op with
  | attach pipe =>
    obtain ⟨d', hd', hshows⟩ := h.shows.attach hop
    exact ⟨d', hd', hshows.ordered⟩
  | matchPipe pipe =>
    obtain ⟨d', hd', hshows⟩ := h.shows.matchPipe pipe hop.2
    exact ⟨d', hd', hshows.ordered⟩
  | reverseMatch =>
    obtain ⟨d', hd', hshows⟩ := h.shows.reverseMatch hop
    exact ⟨d', hd', hshows.ordered⟩
  | unmatch => exact ⟨d.unmatch, rfl, h.shows.unmatch.ordered⟩
  | activated pipe =>
    obtain ⟨d', hd', hactivates⟩ := h.activated hop
    exact ⟨d', hd', hactivates.ordered⟩
  | pipeTerminated pipe =>
    obtain ⟨d', hd', hshows⟩ := h.shows.pipeTerminated hop
    exact ⟨d', hd', hshows.ordered⟩
  | sendToMatching m c ok =>
    obtain ⟨r, hr, hsends⟩ := h.shows.sendToMatching m c ok
    exact ⟨r.dist, by simp [Distributors.step, hr], hsends.shows.ordered⟩
  | sendToAll m c ok =>
    obtain ⟨r, hr, hsends⟩ := h.shows.all.sendToMatching m c ok
    exact ⟨r.dist, by simp [Distributors.step, Distributor.sendToAll, hr], hsends.shows.ordered⟩

/-- What a call returns that writes a message to some of the pipes. -/
structure Writes (targets : List Pipe) (m : Msg) (c : Content) (r : Distributor.Sent Pipe) :
    Prop where
  once : (r.log.map Prod.fst).Perm targets
  passive : ∀ q, (q, false) ∈ r.log → r.dist.eligible ≤ r.dist.pipes.index q
  references : isLong m = true → c.freed = false → 0 < c.references →
    r.content.references + 1 = c.references + r.log.countP fun x => x.2

theorem Shows.writes {v : View Pipe} (h : Shows d v) (m : Msg) (c : Content)
    (ok : Nat → Pipe → Bool) :
    ∃ r, d.sendToMatching m c ok = some r ∧ Writes (d.pipes.items.take d.matching) m c r := by
  obtain ⟨r, hr, hdist⟩ := h.distribute m c ok
  refine ⟨{ r with
      dist := { r.dist with
        active := if m.flags.more then r.dist.active else r.dist.eligible
        more := m.flags.more } }, ?_, hdist.perm h, ?_, ?_⟩
  · rw [Distributor.sendToMatching, hr]
  · intro q hq
    have hout := hdist.shows.eligible q
    simp only [View.without, hq, not_true_eq_false, and_false, iff_false] at hout
    exact Nat.le_of_not_lt hout
  · intro hlong hfreed hpos
    have hrefs := references_distribute h hlong hfreed hpos hr
    exact hrefs

/-- The counters are in order, no access is out of bounds, and messages are written as they
should. -/
structure Serves (d : Distributor Pipe) : Prop where
  ordered : Ordered d
  total : ∀ op, Allowed d op → ∃ d', step d op = some d'
  sendToMatching : ∀ m c ok, ∃ r, d.sendToMatching m c ok = some r ∧
    Writes (d.pipes.items.take d.matching) m c r
  sendToAll : ∀ m c ok, ∃ r, d.sendToAll m c ok = some r ∧
    Writes (d.pipes.items.take d.active) m c r

theorem Ordered.serves (h : Ordered d) : Serves d := by
  constructor
  · exact h
  · intro op hop
    obtain ⟨d', hd', -⟩ := h.step op hop
    exact ⟨d', hd'⟩
  · exact h.shows.writes
  · exact h.shows.all.writes

/-- In every run in which pipes are matched only between messages the regions stay nested, each
call writes once to each of its pipes, and references are counted correctly. -/
theorem serves_of_reach {d : Distributor Pipe} (h : Runs.Reach (· = {}) Allowed step d) :
    Serves d := by
  refine Ordered.serves (h.invariant_of_progress ?_ ?_)
  · rintro d rfl
    exact shows_new.ordered
  · intro d op hordered hop
    exact hordered.step op hop

/-- A pipe that is full, a pipe attached in the middle of a message and a pipe that goes away. -/
def busyRun : List (Op Nat) :=
  [.attach 0, .attach 1, .attach 2, .matchPipe 2, .matchPipe 0,
    .sendToMatching { type := .lmsg, flags := { more := true } } {} (fun _ pipe => pipe != 0),
    .attach 3, .activated 0, .pipeTerminated 1, .sendToMatching {} {} (fun _ _ => true),
    .unmatch, .matchPipe 3, .reverseMatch]

theorem busyRun_serves :
    ∃ d : Distributor Nat, Runs.Reach (· = {}) Allowed step d ∧ d.matching = 2 ∧ d.active = 3 ∧
      Serves d := by
  refine Runs.Reach.of_exec_two (s := {}) Allowed step busyRun ?_ rfl fun d hd => serves_of_reach hd
  decide +kernel

/-- The selection is reversed in the middle of a message, with a new pipe waiting for the next
one. -/
theorem reversed_in_message :
    ∃ d ∈ Runs.exec Runs.Always step ({} : Distributor Nat)
        [.attach 0, .sendToAll { flags := { more := true } } {} (fun _ _ => true), .attach 1,
          .unmatch, .reverseMatch], d.active < d.matching := by
  decide +kernel

end Runs

end Uzmq.Distributors
