import Uzmq.LoadBalancers

/-!
# Messages to a load balancer are not torn

While a message is being written `current` stays at its pipe, which holds all the parts so far
as long as it is alive. No other attached pipe has an unfinished message. What was flushed to the
pipes are whole messages, each of them once.
-/

namespace Uzmq.LoadBalancers

open List Function
open Message
open Rota (Ok Holds Sought)

variable {Pipe : Type} [DecidableEq Pipe]

section Loop
variable {r : Rota Pipe}

omit [DecidableEq Pipe] in
/-- Deactivating the last active pipe does not need a swap. -/
theorem skip_eq (h : Ok r) : Lb.skip r = r.deactivate r.current := by
  have hle := h.active_le
  unfold Lb.skip Rota.deactivate
  by_cases hzero : r.active = 0
  · rw [if_pos hzero, if_pos hzero]
  have hlt : r.current < r.active := h.current_lt.resolve_right fun hboth => hzero hboth.1
  rw [if_neg hzero, if_neg hzero]
  by_cases hlast : r.current = r.active - 1
  · rw [if_neg (by omega), hlast, Slots.swap_self (by omega)]
    simp
  · rw [if_pos (by omega)]
    simp [hlast]

theorem sendLoop_eq (room : Pipe → Bool) (part : Part) (more : Bool) (left : Nat)
    (sinks : Pipe → Sink) (h : Ok r) (hleft : r.active = left) :
    Lb.sendLoop room part more left r sinks =
      r.seek (Lb.onPipe (fun room s => s.write room part) room) more sinks := by
  unfold Rota.seek
  rw [hleft]
  induction left generalizing r sinks with
  | zero => rfl
  | succ left ih =>
    obtain ⟨pipe, hpipe⟩ := h.exists_points (by omega)
    obtain ⟨r', hr', hholds, hactive, -⟩ := h.deactivate hpipe.active
    rw [hpipe.1] at hr'
    simp only [Lb.sendLoop, Rota.seekLoop, h.here_eq hpipe]
    cases Lb.onPipe (fun room s => s.write room part) room pipe sinks with
    | mk result sinks' =>
      cases result with
      | some b => rfl
      | none =>
        cases more with
        | true => rfl
        | false =>
          simp only [Bool.false_eq_true, if_false, skip_eq h, hr']
          exact ih sinks' hholds.ok (by omega)

end Loop

section Sinks
variable {s s' : Sink} {room : Bool} {part : Part}

theorem checkWrite_frame {result : Option Unit} (h : s.checkWrite room = (result, s')) :
    s'.queue = s.queue ∧ s'.alive = s.alive ∧
      (result = some () → s' = s ∧ s.outActive = true ∧ s.alive = true) := by
  unfold Sink.checkWrite at h
  split at h
  · cases h
    exact ⟨rfl, rfl, fun h => by cases h⟩
  rename_i hpermitted
  split at h
  · cases h
    exact ⟨rfl, rfl, fun h => by cases h⟩
  · cases h
    exact ⟨rfl, rfl, fun _ => ⟨rfl, by simpa using hpermitted⟩⟩

theorem write_none (h : s.write room part = (none, s')) :
    s'.queue = s.queue ∧ s'.alive = s.alive := by
  unfold Sink.write at h
  split at h
  · rename_i s₁ hcheck
    cases h
    obtain ⟨hqueue, halive, -⟩ := checkWrite_frame hcheck
    exact ⟨hqueue, halive⟩
  · cases h

theorem write_some (h : s.write room part = (some (), s')) :
    s.outActive = true ∧ s.alive = true ∧
      s' = { s with queue := s.queue.write part part.2.flags.more } := by
  unfold Sink.write at h
  split at h
  · cases h
  rename_i s₁ hcheck
  cases h
  obtain ⟨-, -, hsome⟩ := checkWrite_frame hcheck
  obtain ⟨rfl, hout, halive⟩ := hsome rfl
  exact ⟨hout, halive, rfl⟩

/-- A pipe that is active for writing and has room takes the part. -/
theorem write_succeeds (hout : s.outActive = true) (halive : s.alive = true)
    (hroom : room = true) (part : Part) :
    s.write room part = (some (), { s with queue := s.queue.write part part.2.flags.more }) := by
  simp [Sink.write, Sink.checkWrite, hout, halive, hroom]

theorem write_dead (halive : s.alive = false) (part : Part) : s.write room part = (none, s) := by
  simp [Sink.write, Sink.checkWrite, halive]

end Sinks

/-- What the loops keep: queues and states of the pipes, and the flags of active pipes. -/
structure Ready (attached : List Pipe) (before : Pipe → Sink) (r : Rota Pipe)
    (sinks : Pipe → Sink) : Prop where
  ok : Ok r
  mem : ∀ p, p ∈ r.slots.items ↔ p ∈ attached
  outActive : ∀ p, r.Active p → (sinks p).outActive = true ∨ (sinks p).alive = false
  queue : ∀ p, (sinks p).queue = (before p).queue
  alive : ∀ p, (sinks p).alive = (before p).alive

variable {p pipe : Pipe} {sink : Sink} {i : Nat} {m : Msg}

section Loops
variable {attached : List Pipe} {before sinks : Pipe → Sink} {r : Rota Pipe}
variable (h : Ready attached before r sinks)
include h

theorem Ready.deactivated {r' : Rota Pipe} (hp : r.Points p) (hqueue : sink.queue = (sinks p).queue)
    (halive : sink.alive = (sinks p).alive) (hr' : r.deactivate (r.slots.index p) = some r') :
    Ready attached before r' (update sinks p sink) := by
  obtain ⟨r'', hr'', hholds, -⟩ := h.ok.deactivate hp.active
  rw [hr''] at hr'
  cases hr'
  constructor
  · exact hholds.ok
  · intro q
    rw [hholds.mem, h.mem]
  · intro q hq
    obtain ⟨hq, hne⟩ := (hholds.active q).mp hq
    rw [update_of_ne hne]
    exact h.outActive q hq
  · intro q
    rcases eq_or_ne q p with rfl | heq
    · rw [update_self, hqueue, h.queue]
    · rw [update_of_ne heq, h.queue]
  · intro q
    rcases eq_or_ne q p with rfl | heq
    · rw [update_self, halive, h.alive]
    · rw [update_of_ne heq, h.alive]

theorem Ready.replace (sink : Sink)
    (hout : r.Active p → sink.outActive = true ∨ sink.alive = false) :
    Ready attached (update sinks p sink) r (update sinks p sink) := by
  constructor
  · exact h.ok
  · exact h.mem
  · exact (forall_update_iff sinks fun q sink' =>
      r.Active q → sink'.outActive = true ∨ sink'.alive = false).mpr
        ⟨hout, fun q _ => h.outActive q⟩
  · intro q
    rfl
  · intro q
    rfl

theorem Ready.seek (op : Bool → Sink → Option Unit × Sink) (room : Pipe → Bool)
    (hop : ∀ room s s', op room s = (none, s') → s'.queue = s.queue ∧ s'.alive = s.alive) :
    ∃ q, r.seek (Lb.onPipe op room) false sinks = some q ∧ q.stopped = false ∧
      (q.found = none ∧ Ready attached before q.rota q.state ∨
        ∃ p state sink, q.found = some (p, ()) ∧ Ready attached before q.rota state ∧
          q.rota.Points p ∧ op (room p) (state p) = (some (), sink) ∧
          q.state = update state p sink) := by
  obtain ⟨q, hq, hstopped⟩ := h.ok.seek_isSome (Lb.onPipe op room) sinks
  refine ⟨q, hq, hstopped, ?_⟩
  have hcases := Rota.seek_cases (f := fun p => op (room p)) (fun _ _ h => h.ok) (by
    intro r state p r' sink hready hp hsink hr'
    obtain ⟨hqueue, halive⟩ := hop (room p) (state p) sink hsink
    exact hready.deactivated hp hqueue halive hr') h hq nofun
  rcases hcases with hnone | ⟨p, ⟨⟩, state, sink, hfound⟩
  · exact .inl hnone
  · exact .inr ⟨p, state, sink, hfound⟩

end Loops

/-- All parts but the last one are to be continued. -/
def Complete (parts : List Msg) : Prop :=
  ∃ init last, parts = init ++ [last] ∧ (∀ m ∈ init, m.flags.more = true) ∧ last.flags.more = false

/-- What was flushed to each pipe are the whole messages with the numbers given, and no number is
given twice. -/
structure Stored (messages : Nat → List Msg) (sinks : Pipe → Sink) (ids : Pipe → List Nat) :
    Prop where
  finished : ∀ p, (sinks p).queue.finished = []
  flushed : ∀ p, (sinks p).queue.flushed = (ids p).flatMap fun i => (messages i).map (Prod.mk i)
  nodup : ∀ p, (ids p).Nodup
  disjoint : ∀ p q i, i ∈ ids p → i ∈ ids q → p = q
  complete : ∀ p i, i ∈ ids p → Complete (messages i)

section Stored
variable {messages : Nat → List Msg} {sinks : Pipe → Sink} {ids : Pipe → List Nat}
variable (h : Stored messages sinks ids)
include h

omit [DecidableEq Pipe] in
theorem Stored.congr {messages' : Nat → List Msg} {sinks' : Pipe → Sink}
    (hmessages : ∀ p i, i ∈ ids p → messages' i = messages i)
    (hfinished : ∀ p, (sinks' p).queue.finished = (sinks p).queue.finished)
    (hflushed : ∀ p, (sinks' p).queue.flushed = (sinks p).queue.flushed) :
    Stored messages' sinks' ids := by
  constructor
  · intro p
    rw [hfinished, h.finished]
  · intro p
    rw [hflushed, h.flushed]
    apply flatMap_congr
    intro i hi
    rw [hmessages p i hi]
  · exact h.nodup
  · exact h.disjoint
  · intro p i hi
    rw [hmessages p i hi]
    exact h.complete p i hi

theorem Stored.replace (hfinished : sink.queue.finished = (sinks pipe).queue.finished)
    (hflushed : sink.queue.flushed = (sinks pipe).queue.flushed) :
    Stored messages (update sinks pipe sink) ids := by
  refine h.congr (fun _ _ _ => rfl) ?_ ?_
  · exact (forall_update_iff sinks fun p sink' =>
      sink'.queue.finished = (sinks p).queue.finished).mpr ⟨hfinished, fun _ _ => rfl⟩
  · exact (forall_update_iff sinks fun p sink' =>
      sink'.queue.flushed = (sinks p).queue.flushed).mpr ⟨hflushed, fun _ _ => rfl⟩

theorem Stored.attach (pipe : Pipe) :
    Stored messages (update sinks pipe {}) (update ids pipe []) := by
  have hold {p : Pipe} {i : Nat} (hi : i ∈ update ids pipe [] p) : i ∈ ids p := by
    by_cases heq : p = pipe
    · simp [heq] at hi
    · simpa [heq] using hi
  constructor
  · intro p
    by_cases heq : p = pipe
    · simp [heq]
    · simpa [heq] using h.finished p
  · intro p
    by_cases heq : p = pipe
    · simp [heq]
    · simpa [heq] using h.flushed p
  · intro p
    by_cases heq : p = pipe
    · simp [heq]
    · simpa [heq] using h.nodup p
  · intro p q i hp hq
    exact h.disjoint p q i (hold hp) (hold hq)
  · intro p i hi
    exact h.complete p i (hold hi)

theorem Stored.flush (hnew : ∀ p, i ∉ ids p) (hcomplete : Complete (messages i))
    (hfinished : sink.queue.finished = []) (hflushed : sink.queue.flushed =
      (sinks pipe).queue.flushed ++ (messages i).map (Prod.mk i)) :
    Stored messages (update sinks pipe sink) (update ids pipe (ids pipe ++ [i])) := by
  have hold {p : Pipe} {j : Nat} (hj : j ∈ update ids pipe (ids pipe ++ [i]) p) :
      j ∈ ids p ∨ (p = pipe ∧ j = i) := by
    rcases eq_or_ne p pipe with rfl | heq
    · simpa using hj
    · exact .inl (by simpa [heq] using hj)
  constructor
  · intro p
    by_cases heq : p = pipe
    · simpa [heq] using hfinished
    · simpa [heq] using h.finished p
  · intro p
    rcases eq_or_ne p pipe with rfl | heq
    · simp [hflushed, h.flushed]
    · simpa [heq] using h.flushed p
  · intro p
    rcases eq_or_ne p pipe with rfl | heq
    · have hnot := hnew p
      simp only [update_self]
      rw [nodup_append']
      exact ⟨h.nodup p, nodup_singleton i, by simpa [disjoint_singleton] using hnot⟩
    · simpa [heq] using h.nodup p
  · intro p q j hp hq
    rcases hold hp with hp' | ⟨rfl, rfl⟩
    · rcases hold hq with hq' | ⟨rfl, rfl⟩
      · exact h.disjoint p q j hp' hq'
      · exact absurd hp' (hnew p)
    · rcases hold hq with hq' | ⟨rfl, -⟩
      · exact absurd hq' (hnew q)
      · rfl
  · intro p j hj
    rcases hold hj with hj | ⟨-, rfl⟩
    · exact h.complete p j hj
    · exact hcomplete

end Stored

/-- The message in progress is at the current pipe as far as it was written. -/
structure Inv (s : System Pipe) (ids : Pipe → List Nat) : Prop where
  ready : Ready s.attached s.sinks s.lb.rota s.sinks
  more : s.lb.more = decide (s.progress = .within)
  dropping : s.lb.dropping = true → s.progress = .within
  unended : s.progress = .within → 0 < s.started ∧ s.messages (s.started - 1) ≠ [] ∧
    ∀ m ∈ s.messages (s.started - 1), m.flags.more = true
  target : s.progress = .within → s.lb.dropping = false → ∃ p, s.lb.rota.Points p ∧
    ((s.sinks p).alive = true → (s.sinks p).queue.unfinished = s.parts (s.started - 1))
  rest : ∀ q ∈ s.attached, (s.sinks q).queue.unfinished ≠ [] →
    s.progress = .within ∧ s.lb.dropping = false ∧ s.lb.rota.Points q
  continued : ∀ q, ∀ x ∈ (s.sinks q).queue.unfinished, x.2.flags.more = true
  stored : Stored s.messages s.sinks ids
  numbers : ∀ p i, i ∈ ids p → i < s.started

section Steps
variable {s : System Pipe} {ids : Pipe → List Nat}

/-- Between two messages no attached pipe has an unfinished one. -/
theorem inv_between (hbetween : s.progress ≠ .within) (hmore : s.lb.more = false)
    (hdropping : s.lb.dropping = false)
    (hready : Ready s.attached s.sinks s.lb.rota s.sinks)
    (hclean : ∀ q ∈ s.attached, (s.sinks q).queue.unfinished = [])
    (hcontinued : ∀ q, ∀ x ∈ (s.sinks q).queue.unfinished, x.2.flags.more = true)
    (hstored : Stored s.messages s.sinks ids) (hnumbers : ∀ p i, i ∈ ids p → i < s.started) :
    Inv s ids := by
  refine ⟨hready, ?_, ?_, ?_, ?_, ?_, hcontinued, hstored, hnumbers⟩
  · rw [hmore, decide_eq_false hbetween]
  · exact fun hdrop => nomatch hdropping.symm.trans hdrop
  · exact fun hwithin => absurd hwithin hbetween
  · exact fun hwithin => absurd hwithin hbetween
  · exact fun q hq hne => absurd (hclean q hq) hne

theorem inv_new : Inv ({} : System Pipe) fun _ => [] := by
  refine inv_between nofun rfl rfl ?_ nofun nofun ?_ nofun
  · exact ⟨Rota.ok_new, fun _ => Iff.rfl, nofun, fun _ => rfl, fun _ => rfl⟩
  · constructor <;> simp

section
variable (h : Inv s ids)
include h

theorem Inv.unflushed (hwithin : s.progress = .within) (p : Pipe) : s.started - 1 ∉ ids p := by
  intro hin
  obtain ⟨init, last, hparts, -, hlast⟩ := h.stored.complete p _ hin
  obtain ⟨-, -, hmore⟩ := h.unended hwithin
  have htrue := hmore last (by rw [hparts]; simp)
  rw [hlast] at htrue
  cases htrue

theorem Inv.attach (hnew : pipe ∉ s.attached) :
    ∃ t ids', step s (.attach pipe) = some t ∧ Inv t ids' := by
  have hout : pipe ∉ s.lb.rota.slots.items := fun hin => hnew ((h.ready.mem pipe).mp hin)
  obtain ⟨r₁, hr₁, hholds₁, hpoints₁⟩ := h.ready.ok.append hout
  have hpassive : ¬ r₁.Active pipe := by
    intro hactive
    exact hout (h.ready.ok.mem_of_active ((hholds₁.active pipe).mp hactive))
  obtain ⟨r, hr, hholds, hpoints⟩ :=
    hholds₁.ok.activate ((hholds₁.mem pipe).mpr (.inr rfl)) hpassive
  have hne {q : Pipe} (hq : s.lb.rota.Points q) : q ≠ pipe := by
    rintro rfl
    exact hout (h.ready.ok.mem_of_active hq.active)
  refine ⟨_, update ids pipe [],
    by rw [step, Lb.attach, hr₁]; simp only [Lb.activated, hr]; rfl, ?_⟩
  constructor
  · constructor
    · exact hholds.ok
    · intro q
      rw [hholds.mem, hholds₁.mem, h.ready.mem, mem_cons, or_comm]
    · intro q hq
      by_cases heq : q = pipe
      · simp [heq]
      · have hq₁ := ((hholds.active q).mp hq).resolve_right heq
        simpa [heq] using h.ready.outActive q ((hholds₁.active q).mp hq₁)
    · intro q
      rfl
    · intro q
      rfl
  · exact h.more
  · exact h.dropping
  · exact h.unended
  · intro hwithin hdropping
    obtain ⟨p, hp, hunfinished⟩ := h.target hwithin hdropping
    exact ⟨p, hpoints p (hpoints₁ p hp), by simpa [hne hp, System.parts] using hunfinished⟩
  · intro q hq hunfinished
    by_cases heq : q = pipe
    · simp [heq] at hunfinished
    · simp only [update_of_ne heq] at hunfinished
      obtain ⟨hwithin, hdropping, hp⟩ :=
        h.rest q ((mem_cons.mp hq).resolve_left heq) hunfinished
      exact ⟨hwithin, hdropping, hpoints q (hpoints₁ q hp)⟩
  · intro q x hx
    by_cases heq : q = pipe
    · simp [heq] at hx
    · simp only [update_of_ne heq] at hx
      exact h.continued q x hx
  · exact h.stored.attach pipe
  · intro p i hi
    by_cases heq : p = pipe
    · simp [heq] at hi
    · simp only [update_of_ne heq] at hi
      exact h.numbers p i hi

theorem Inv.close (pipe : Pipe) (rolledBack : Bool) :
    ∃ t ids', step s (.close pipe rolledBack) = some t ∧ Inv t ids' := by
  obtain ⟨sink, hsink, hfinished, hflushed, hunfinished⟩ : ∃ sink : Sink,
      (if rolledBack then (s.sinks pipe).rollback else some (s.sinks pipe)) = some sink ∧
        sink.queue.finished = (s.sinks pipe).queue.finished ∧
        sink.queue.flushed = (s.sinks pipe).queue.flushed ∧
        (sink.queue.unfinished = [] ∨ sink.queue.unfinished = (s.sinks pipe).queue.unfinished) := by
    cases rolledBack with
    | false => exact ⟨_, rfl, rfl, rfl, .inr rfl⟩
    | true =>
      have hall : (s.sinks pipe).queue.unfinished.all (fun part => part.2.flags.more) = true := by
        rw [all_eq_true]
        exact h.continued pipe
      refine ⟨{ s.sinks pipe with queue := { (s.sinks pipe).queue with unfinished := [] } },
        ?_, rfl, rfl, .inl rfl⟩
      rw [if_pos rfl, Sink.rollback, if_pos hall]
  refine ⟨_, ids, by rw [step, hsink]; rfl, ?_⟩
  refine { h with ready := ?_, target := ?_, rest := ?_, continued := ?_, stored := ?_ }
  · exact h.ready.replace _ fun _ => .inr rfl
  · intro hwithin hdropping
    obtain ⟨p, hp, hparts⟩ := h.target hwithin hdropping
    refine ⟨p, hp, ?_⟩
    by_cases heq : p = pipe
    · simp [heq]
    · simpa [heq, System.parts] using hparts
  · intro q hq hne
    refine h.rest q hq ?_
    rcases eq_or_ne q pipe with rfl | heq
    · simp only [update_self] at hne
      rwa [hunfinished.resolve_left hne] at hne
    · simpa [heq] using hne
  · intro q x hx
    rcases eq_or_ne q pipe with rfl | heq
    · simp only [update_self] at hx
      rcases hunfinished with hnil | hsame
      · rw [hnil] at hx
        cases hx
      · rw [hsame] at hx
        exact h.continued q x hx
    · simp only [update_of_ne heq] at hx
      exact h.continued q x hx
  · exact h.stored.replace hfinished hflushed

/-- The active pipes and their flags change, the queues do not. -/
theorem Inv.rearranged {r : Rota Pipe} {sinks : Pipe → Sink}
    (hready : Ready s.attached s.sinks r sinks)
    (hpoints : s.progress = .within → ∀ p, s.lb.rota.Points p → r.Points p) :
    Inv { s with lb := { s.lb with rota := r }, sinks := sinks } ids := by
  refine { h with ready := ?_, target := ?_, rest := ?_, continued := ?_, stored := ?_ }
  · exact { hready with queue := fun _ => rfl, alive := fun _ => rfl }
  · intro hwithin hdropping
    obtain ⟨p, hp, hparts⟩ := h.target hwithin hdropping
    refine ⟨p, hpoints hwithin p hp, ?_⟩
    simpa only [hready.alive, hready.queue, System.parts] using hparts
  · intro q hq hne
    simp only [hready.queue] at hne
    obtain ⟨hwithin, hdropping, hp⟩ := h.rest q hq hne
    exact ⟨hwithin, hdropping, hpoints hwithin q hp⟩
  · intro q x hx
    simp only [hready.queue] at hx
    exact h.continued q x hx
  · exact h.stored.congr (fun _ _ _ => rfl) (fun p => by rw [hready.queue])
      (fun p => by rw [hready.queue])

theorem Inv.activateWrite (hin : pipe ∈ s.attached) :
    ∃ t ids', step s (.activateWrite pipe) = some t ∧ Inv t ids' := by
  by_cases hpassive : (s.sinks pipe).outActive = false ∧ (s.sinks pipe).alive = true
  · have hnot : ¬ s.lb.rota.Active pipe := by
      intro hactive
      rcases h.ready.outActive pipe hactive with hout | hdead
      · rw [hout] at hpassive
        cases hpassive.1
      · rw [hdead] at hpassive
        cases hpassive.2
    obtain ⟨r, hr, hholds, hpoints⟩ := h.ready.ok.activate ((h.ready.mem pipe).mpr hin) hnot
    refine ⟨_, ids, by rw [step, if_pos hpassive, Lb.activated, hr]; rfl, ?_⟩
    refine h.rearranged ?_ fun _ => hpoints
    constructor
    · exact hholds.ok
    · intro q
      rw [hholds.mem, h.ready.mem]
    · intro q hq
      by_cases heq : q = pipe
      · simp [heq]
      · simpa [heq] using h.ready.outActive q (((hholds.active q).mp hq).resolve_right heq)
    · intro q
      by_cases heq : q = pipe <;> simp [heq]
    · intro q
      by_cases heq : q = pipe <;> simp [heq]
  · exact ⟨s, ids, by rw [step, if_neg hpassive], h⟩

theorem Inv.hasOut (room : Pipe → Bool) :
    ∃ t ids', step s (.hasOut room) = some t ∧ Inv t ids' := by
  by_cases hmore : s.lb.more = true
  · exact ⟨s, ids, by rw [step, Lb.hasOut, if_pos hmore]; rfl, h⟩
  have hbetween : s.progress ≠ .within := by
    intro hwithin
    rw [h.more, hwithin] at hmore
    exact hmore rfl
  obtain ⟨q, hq, -, hcases⟩ := h.ready.seek (fun room s => s.checkWrite room) room
    fun room s s' hcheck => ⟨(checkWrite_frame hcheck).1, (checkWrite_frame hcheck).2.1⟩
  refine ⟨{ s with lb := { s.lb with rota := q.rota }, sinks := q.state }, ids,
    by rw [step, Lb.hasOut, if_neg hmore, hq]; rfl, ?_⟩
  refine h.rearranged ?_ fun hwithin => absurd hwithin hbetween
  rcases hcases with ⟨-, hready⟩ | ⟨p, state, sink, -, hready, -, hcheck, hstate⟩
  · exact hready
  · obtain ⟨rfl, -⟩ := (checkWrite_frame hcheck).2.2 rfl
    rw [hstate, update_eq_self]
    exact hready

theorem Inv.terminated (hin : pipe ∈ s.attached) (hsafe : Safe s.lb pipe) :
    ∃ t ids', step s (.terminated pipe) = some t ∧ Inv t ids' := by
  obtain ⟨r, hr, hholds, hpoints⟩ := h.ready.ok.remove ((h.ready.mem pipe).mpr hin)
  -- The pipe of the message in progress keeps the position unless it is the one that goes away.
  have hkept {p : Pipe} (hwithin : s.progress = .within) (hdropping : s.lb.dropping = false)
      (hp : s.lb.rota.Points p) (hne : p ≠ pipe) : r.Points p := by
    have hmore : s.lb.more = true := by
      rw [h.more, hwithin]
      rfl
    refine hpoints p hp hne ?_
    intro hactive hlast
    refine (hsafe hmore hdropping hactive hlast).resolve_right ?_
    intro heq
    exact hne (hp.inj h.ready.ok ⟨heq, hp.2⟩)
  refine ⟨_, ids, by rw [step, Lb.pipeTerminated, hr]; rfl, ?_⟩
  refine { h with ready := ?_, dropping := ?_, target := ?_, rest := ?_ }
  · constructor
    · exact hholds.ok
    · intro q
      rw [hholds.mem, h.ready.mem]
      simp
    · intro q hq
      exact h.ready.outActive q ((hholds.active q).mp hq).1
    · intro q
      rfl
    · intro q
      rfl
  · intro hdropping
    rcases Bool.or_eq_true_iff.mp hdropping with hbefore | hnow
    · exact h.dropping hbefore
    · have hmore := (Bool.and_eq_true_iff.mp hnow).2
      rw [h.more] at hmore
      exact of_decide_eq_true hmore
  · intro hwithin hdropping
    obtain ⟨hbefore, hnow⟩ := Bool.or_eq_false_iff.mp hdropping
    obtain ⟨p, hp, hparts⟩ := h.target hwithin hbefore
    refine ⟨p, hkept hwithin hbefore hp ?_, hparts⟩
    rintro rfl
    simp [hp.1, h.more, show s.progress = .within from hwithin] at hnow
  · intro q hq hne
    obtain ⟨hq, hdiff⟩ := mem_filter.mp hq
    obtain ⟨hwithin, hdropping, hp⟩ := h.rest q hq hne
    have hdiff : q ≠ pipe := by simpa using hdiff
    refine ⟨hwithin, ?_, hkept hwithin hdropping hp hdiff⟩
    have hindex : s.lb.rota.slots.index pipe ≠ s.lb.rota.current := by
      intro heq
      exact hdiff (hp.inj h.ready.ok ⟨heq, hp.2⟩)
    simp [hdropping, hindex]

end

/-- A part that is about to be written: the pipe, the parts of its message before it, and the
number of the message. -/
structure Writing (s : System Pipe) (ids : Pipe → List Nat) (r : Rota Pipe) (state : Pipe → Sink)
    (p : Pipe) (first : Bool) (before : List Msg) : Prop where
  ready : Ready s.attached s.sinks r state
  points : r.Points p
  dropping : s.lb.dropping = false
  before_eq : (if first then [] else s.messages (s.number first)) = before
  number : s.number first + 1 = if first then s.started + 1 else s.started
  unfinished : (s.sinks p).queue.unfinished = before.map (Prod.mk (s.number first))
  before_more : ∀ m ∈ before, m.flags.more = true
  rest : ∀ q ∈ s.attached, q ≠ p → (s.sinks q).queue.unfinished = []
  unflushed : ∀ q, s.number first ∉ ids q

section Writing
variable {r : Rota Pipe} {state : Pipe → Sink} {p : Pipe} {first : Bool} {before : List Msg}

theorem Writing.message (h : Writing s ids r state p first before) (m : Msg) :
    (if first then [m] else s.messages (s.number first) ++ [m]) = before ++ [m] := by
  rw [← h.before_eq]
  cases first <;> rfl

theorem Writing.stored (h : Writing s ids r state p first before) (hinv : Inv s ids)
    (l : List Msg) :
    Stored (update s.messages (s.number first) l) state ids := by
  refine hinv.stored.congr ?_ (fun q => by rw [h.ready.queue]) (fun q => by rw [h.ready.queue])
  intro q i hi
  refine update_of_ne ?_ _ _
  rintro rfl
  exact h.unflushed q hi

theorem Inv.numbers_next (h : Inv s ids) (first : Bool) {q : Pipe} (hi : i ∈ ids q) :
    i < if first then s.started + 1 else s.started := by
  have hlt := h.numbers q i hi
  split <;> omega

section
variable (h : Writing s ids r state p first before) (hinv : Inv s ids)
include h hinv

theorem Writing.continues (hm : m.flags.more = true) :
    Inv (s.sent first m (s.lb.written r (update state p
      { state p with queue := (state p).queue.write (s.number first, m) m.flags.more }) p m))
      ids := by
  have hunfinished : ((state p).queue.write (s.number first, m) m.flags.more).unfinished =
      (before ++ [m]).map (Prod.mk (s.number first)) := by
    simp [Channel.write, hm, h.ready.queue, h.unfinished]
  have hmore : ∀ m' ∈ before ++ [m], m'.flags.more = true :=
    forall_mem_append.mpr ⟨h.before_more, forall_mem_singleton.mpr hm⟩
  have hnumber := h.number
  have hlast : (if first then s.started + 1 else s.started) - 1 = s.number first := by omega
  simp only [System.sent, Lb.written, hm, if_true] at hunfinished ⊢
  constructor
  · exact h.ready.replace _ (h.ready.outActive p)
  · rfl
  · intro hdropping
    rfl
  · intro _
    simp only [hlast, update_self, h.message]
    exact ⟨by omega, by simp, hmore⟩
  · intro _ _
    refine ⟨p, h.points, ?_⟩
    intro _
    simp only [System.parts, hlast, update_self, h.message]
    exact hunfinished
  · intro q hq hne
    have heq : q = p := by
      by_contra hdiff
      simp only [update_of_ne hdiff, h.ready.queue] at hne
      exact hne (h.rest q hq hdiff)
    subst heq
    exact ⟨rfl, h.dropping, h.points⟩
  · intro q x hx
    rcases eq_or_ne q p with rfl | heq
    · simp only [update_self] at hx
      rw [hunfinished] at hx
      obtain ⟨m', hm', rfl⟩ := mem_map.mp hx
      exact hmore m' hm'
    · simp only [update_of_ne heq, h.ready.queue] at hx
      exact hinv.continued q x hx
  · exact (h.stored hinv _).replace rfl rfl
  · intro q i hi
    exact hinv.numbers_next first hi

theorem Writing.ends (hm : m.flags.more = false) :
    Inv (s.sent first m (s.lb.written r (update state p
      { state p with queue := (state p).queue.write (s.number first, m) m.flags.more }) p m))
      (update ids p (ids p ++ [s.number first])) := by
  have hnumber := h.number
  have hlt := h.points.2
  simp only [System.sent, Lb.written, hm, Bool.false_eq_true, if_false, if_true,
    update_self, update_idem]
  refine inv_between nofun rfl h.dropping ?_ ?_ ?_ ?_ ?_
  · have hready := h.ready.replace (Sink.flush { state p with
      queue := (state p).queue.write (s.number first, m) false }) (h.ready.outActive p)
    refine { hready with ok := ⟨hready.ok.active_le, .inl ?_⟩ }
    dsimp only
    split <;> omega
  · intro q hq
    rcases eq_or_ne q p with rfl | heq
    · simp [Sink.flush, Channel.flush, Channel.write]
    · simp only [update_of_ne heq, h.ready.queue]
      exact h.rest q hq heq
  · intro q x hx
    rcases eq_or_ne q p with rfl | heq
    · simp [Sink.flush, Channel.flush, Channel.write] at hx
    · simp only [update_of_ne heq, h.ready.queue] at hx
      exact hinv.continued q x hx
  · refine (h.stored hinv _).flush h.unflushed ?_ ?_ ?_
    · rw [update_self, h.message]
      exact ⟨before, m, rfl, h.before_more, hm⟩
    · simp [Sink.flush, Channel.flush]
    · rw [update_self, h.message]
      simp [Sink.flush, Channel.flush, Channel.write, h.ready.queue, hinv.stored.finished,
        h.unfinished]
  · intro q i hi
    rcases eq_or_ne q p with rfl | heq
    · simp only [update_self] at hi
      rcases mem_append.mp hi with hold | hself
      · exact hinv.numbers_next first hold
      · rw [mem_singleton.mp hself]
        dsimp only
        omega
    · simp only [update_of_ne heq] at hi
      exact hinv.numbers_next first hi

theorem Writing.written (m : Msg) :
    ∃ ids', Inv (s.sent first m (s.lb.written r (update state p
      { state p with queue := (state p).queue.write (s.number first, m) m.flags.more }) p m))
      ids' := by
  cases hm : m.flags.more with
  | true =>
    rw [← hm]
    exact ⟨ids, h.continues hinv hm⟩
  | false =>
    rw [← hm]
    exact ⟨_, h.ends hinv hm⟩

end

end Writing

/-- The rest of a message whose pipe has gone away is dropped. -/
theorem Inv.send_dropping (h : Inv s ids) (m : Msg) (room : Pipe → Bool)
    (hdropping : s.lb.dropping = true) :
    ∃ t ids', step s (.send false m room) = some t ∧ Inv t ids' := by
  have hwithin := h.dropping hdropping
  obtain ⟨hpos, hne, hmore⟩ := h.unended hwithin
  refine ⟨_, ids, by rw [step, Lb.sendpipe, if_pos hdropping]; rfl, ?_⟩
  simp only [System.sent, if_true, Bool.false_eq_true, if_false, System.number]
  constructor
  · exact h.ready
  · cases m.flags.more <;> rfl
  · intro hm
    exact if_pos hm
  · intro hnext
    have hm : m.flags.more = true := by
      by_contra hnot
      rw [if_neg hnot] at hnext
      cases hnext
    simp only [update_self]
    exact ⟨hpos, by simp, forall_mem_append.mpr ⟨hmore, forall_mem_singleton.mpr hm⟩⟩
  · intro hnext hnot
    rw [if_neg (by simp [show m.flags.more = false from hnot])] at hnext
    cases hnext
  · intro q hq hunfinished
    have hfalse := (h.rest q hq hunfinished).2.1
    rw [hdropping] at hfalse
    cases hfalse
  · exact h.continued
  · refine h.stored.congr ?_ (fun _ => rfl) (fun _ => rfl)
    intro q i hi
    refine update_of_ne ?_ _ _
    rintro rfl
    exact h.unflushed hwithin q hi
  · exact h.numbers

/-- The pipe of the message takes the next part, or the message is taken back. -/
theorem Inv.send_within (h : Inv s ids) (m : Msg) {room : Pipe → Bool}
    (hwithin : s.progress = .within) (hdropping : s.lb.dropping = false)
    (hroom : ∀ pipe ∈ s.attached, (s.sinks pipe).queue.unfinished ≠ [] → room pipe = true) :
    ∃ t ids', step s (.send false m room) = some t ∧ Inv t ids' := by
  obtain ⟨p, hp, hparts⟩ := h.target hwithin hdropping
  obtain ⟨hpos, hne, hmore⟩ := h.unended hwithin
  have hin : p ∈ s.attached := (h.ready.mem p).mp (h.ready.ok.mem_of_active hp.active)
  have hrest (q : Pipe) (hq : q ∈ s.attached) (hdiff : q ≠ p) :
      (s.sinks q).queue.unfinished = [] := by
    by_contra hunfinished
    exact hdiff ((h.rest q hq hunfinished).2.2.inj h.ready.ok hp)
  have hlb : s.lb.more = true := by
    rw [h.more, hwithin]
    rfl
  have hloop := sendLoop_eq room (s.number false, m) s.lb.more s.lb.rota.active s.sinks
    h.ready.ok rfl
  cases halive : (s.sinks p).alive with
  | true =>
    have hunfinished := hparts halive
    have hout : (s.sinks p).outActive = true :=
      (h.ready.outActive p hp.active).resolve_right (by simp [halive])
    have hnonempty : (s.sinks p).queue.unfinished ≠ [] := by
      rw [hunfinished]
      simpa [System.parts] using hne
    have hwrite := write_succeeds hout halive (hroom p hin hnonempty) (s.number false, m)
    have hattempt : Lb.onPipe (fun room s' => s'.write room (s.number false, m)) room p s.sinks =
        (some (), update s.sinks p { s.sinks p with
          queue := (s.sinks p).queue.write (s.number false, m) m.flags.more }) := by
      rw [Lb.onPipe, hwrite]
    have hwriting : Writing s ids s.lb.rota s.sinks p false (s.messages (s.started - 1)) :=
      { ready := h.ready, points := hp, dropping := hdropping, before_eq := rfl
        number := Nat.sub_add_cancel hpos, unfinished := hunfinished, before_more := hmore
        rest := hrest, unflushed := h.unflushed hwithin }
    obtain ⟨ids', hinv⟩ := hwriting.written h m
    refine ⟨_, ids', ?_, hinv⟩
    rw [step, Lb.sendpipe, if_neg (by simp [hdropping]), hloop, h.ready.ok.seek_found hp hattempt]
    rfl
  | false =>
    have hattempt : Lb.onPipe (fun room s' => s'.write room (s.number false, m)) room p s.sinks =
        (none, s.sinks) := by
      rw [Lb.onPipe, write_dead halive, update_eq_self]
    have hall : (s.sinks p).queue.unfinished.all (fun part => part.2.flags.more) = true := by
      rw [all_eq_true]
      exact h.continued p
    rw [hlb, h.ready.ok.seek_stopped hp hattempt] at hloop
    refine ⟨s.sent false m {
        lb := { s.lb with more := false }
        sinks := update s.sinks p
          { s.sinks p with queue := { (s.sinks p).queue with unfinished := [] } }
        accepted := false }, ids, ?_, ?_⟩
    · rw [step, Lb.sendpipe, if_neg (by simp [hdropping]), hlb, hloop]
      simp only [if_true, h.ready.ok.here_eq hp, Sink.rollback, hall, Option.map_some]
    simp only [System.sent, Bool.false_eq_true, if_false]
    refine inv_between nofun rfl hdropping ?_ ?_ ?_ ?_ h.numbers
    · exact h.ready.replace _ (h.ready.outActive p)
    · intro q hq
      rcases eq_or_ne q p with rfl | heq
      · simp
      · simpa only [update_of_ne heq] using hrest q hq heq
    · intro q x hx
      rcases eq_or_ne q p with rfl | heq
      · simp at hx
      · simp only [update_of_ne heq] at hx
        exact h.continued q x hx
    · exact h.stored.replace rfl rfl

/-- The first part of a message goes to the first pipe that takes it. -/
theorem Inv.send_first (h : Inv s ids) (m : Msg) (room : Pipe → Bool)
    (hbetween : s.progress ≠ .within) :
    ∃ t ids', step s (.send true m room) = some t ∧ Inv t ids' := by
  have hmore : s.lb.more = false := by
    rw [h.more]
    simp [hbetween]
  have hdropping : ¬ s.lb.dropping = true := fun hdropping => hbetween (h.dropping hdropping)
  have hkept : s.lb.dropping = false := Bool.eq_false_iff.mpr hdropping
  have hclean (q : Pipe) (hq : q ∈ s.attached) : (s.sinks q).queue.unfinished = [] := by
    by_contra hunfinished
    exact hbetween (h.rest q hq hunfinished).1
  have hloop := sendLoop_eq room (s.number true, m) s.lb.more s.lb.rota.active s.sinks
    h.ready.ok rfl
  obtain ⟨q, hq, hstopped, hcases⟩ := h.ready.seek (fun room s' => s'.write room (s.number true, m))
    room fun _ _ _ => write_none
  rw [hmore, hq] at hloop
  rcases hcases with ⟨hfound, hready⟩ | ⟨p, state, sink, hfound, hready, hp, hwrite, hstate⟩
  · have hinv := h.rearranged hready fun hwithin => absurd hwithin hbetween
    refine ⟨{ s with lb := { s.lb with rota := q.rota }, sinks := q.state, progress := .between },
      ids, ?_, ?_⟩
    · rw [step, Lb.sendpipe, if_neg hdropping, hmore, hloop]
      simp [hstopped, hfound, System.sent, hmore]
    · refine inv_between nofun hmore hkept hinv.ready ?_ hinv.continued hinv.stored h.numbers
      exact fun p hp => (congrArg Channel.unfinished (hready.queue p)).trans (hclean p hp)
  obtain ⟨-, -, rfl⟩ := write_some hwrite
  have hin : p ∈ s.attached := (hready.mem p).mp (hready.ok.mem_of_active hp.active)
  have hwriting : Writing s ids q.rota state p true [] :=
    { ready := hready, points := hp, dropping := hkept, before_eq := rfl
      number := rfl, unfinished := hclean p hin, before_more := by simp
      rest := fun q hq _ => hclean q hq
      unflushed := fun q hin => absurd (h.numbers q _ hin) (Nat.lt_irrefl _) }
  obtain ⟨ids', hinv⟩ := hwriting.written h m
  refine ⟨_, ids', ?_, hinv⟩
  rw [step, Lb.sendpipe, if_neg hdropping, hmore, hloop]
  simp only [hstopped, hfound, hstate, Bool.false_eq_true, if_false, Option.map_some]

theorem Inv.step (h : Inv s ids) (i : Input Pipe) (hi : Guard s i) :
    ∃ t ids', step s i = some t ∧ Inv t ids' := by
  cases i with
  | attach pipe => exact h.attach hi
  | close pipe rolledBack => exact h.close pipe rolledBack
  | activateWrite pipe => exact h.activateWrite hi
  | terminated pipe => exact h.terminated hi.1 hi.2
  | hasOut room => exact h.hasOut room
  | send first m room =>
    obtain ⟨hfirst, hroom⟩ := hi
    cases first with
    | true => exact h.send_first m room (hfirst.mp rfl)
    | false =>
      have hwithin : s.progress = .within := by
        by_contra hnot
        cases hfirst.mpr hnot
      cases hdropping : s.lb.dropping with
      | true => exact h.send_dropping m room hdropping
      | false => exact h.send_within m hwithin hdropping hroom

end Steps

/-- No assertion fails in the next call. What was flushed to each pipe is a sequence of whole
messages, all parts of which were accepted, and no message is flushed twice. -/
structure Atomic (s : System Pipe) : Prop where
  total : ∀ i, Guard s i → ∃ t, step s i = some t
  flushed : ∃ ids : Pipe → List Nat,
    (∀ p, (s.sinks p).queue.flushed = (ids p).flatMap s.parts) ∧ (∀ p, (ids p).Nodup) ∧
      (∀ p q i, i ∈ ids p → i ∈ ids q → p = q) ∧ ∀ p i, i ∈ ids p → Complete (s.messages i)

theorem Inv.atomic {s : System Pipe} {ids : Pipe → List Nat} (h : Inv s ids) : Atomic s := by
  constructor
  · intro i hi
    obtain ⟨t, -, ht, -⟩ := h.step i hi
    exact ⟨t, ht⟩
  · exact ⟨ids, h.stored.flushed, h.stored.nodup, h.stored.disjoint, h.stored.complete⟩

/-- In every run in which a caller that was refused a part starts the next message, and in which
no other active pipe but the first one goes away while a message is written to the last active
one, messages are flushed as a whole to one pipe, or not at all. -/
theorem untorn_of_reach {s : System Pipe} (h : Runs.Reach (· = {}) Guard step s) : Atomic s := by
  have hinv : ∃ ids, Inv s ids := by
    refine h.invariant_of_progress (P := fun s => ∃ ids, Inv s ids) ?_ ?_
    · rintro s rfl
      exact ⟨_, inv_new⟩
    · rintro s i ⟨ids, hinv⟩ met
      obtain ⟨t, ids', ht, hinv'⟩ := hinv.step i met
      exact ⟨t, ht, ids', hinv'⟩
  obtain ⟨ids, hinv⟩ := hinv
  exact hinv.atomic

/-- The first part of a message is taken back since its pipe is being closed. The next message
loses its pipe and is dropped, the last one is flushed. -/
def turbulentRun : List (Input Nat) :=
  [.attach 0, .attach 1, .attach 2, .send true { data := [10] } (fun pipe => pipe != 0),
    .send true { data := [20], flags := { more := true } } (fun _ => true), .activateWrite 0,
    .close 1 false, .send false { data := [21] } (fun _ => true), .hasOut (fun _ => true),
    .send true { data := [30], flags := { more := true } } (fun _ => true), .terminated 0,
    .send false { data := [31] } (fun _ => true),
    .send true { data := [40], flags := { more := true } } (fun _ => true), .terminated 1,
    .send false { data := [41] } (fun _ => true)]

theorem turbulentRun_untorn :
    ∃ s : System Nat, Runs.Reach (· = {}) Guard step s ∧ s.started = 4 ∧
      (s.sinks 2).queue.flushed = [(0, { data := [10] }),
        (3, { data := [40], flags := { more := true } }), (3, { data := [41] })] ∧ Atomic s := by
  refine Runs.Reach.of_exec_two (s := {}) Guard step turbulentRun ?_ rfl
    fun s hs => untorn_of_reach hs
  decide +kernel

/-- The pipe of a message is closed after the first part, and the caller sends the second part
again after it was refused; and the second of three pipes goes away while a message is written to
the third one. In both runs the last part is flushed without the first one. -/
theorem last_part_alone :
    (∃ s ∈ Runs.exec Runs.Always step ({} : System Nat)
        [.attach 0, .attach 1,
          .send true { data := [10], flags := { more := true } } (fun _ => true), .close 0 true,
          .send false { data := [11] } (fun _ => true),
          .send false { data := [11] } (fun _ => true)],
      s.messages 0 = [{ data := [10], flags := { more := true } }, { data := [11] }] ∧
        (s.sinks 1).queue.flushed = [(0, { data := [11] })]) ∧
    ∃ s ∈ Runs.exec Runs.Always step ({} : System Nat)
        [.attach 0, .attach 1, .attach 2, .send true { data := [10] } (fun _ => true),
          .send true { data := [20] } (fun _ => true),
          .send true { data := [30], flags := { more := true } } (fun _ => true), .terminated 1,
          .send false { data := [31] } (fun _ => true)],
      s.messages 2 = [{ data := [30], flags := { more := true } }, { data := [31] }] ∧
        (s.sinks 0).queue.flushed = [(0, { data := [10] }), (2, { data := [31] })] := by
  constructor <;> decide +kernel

end Uzmq.LoadBalancers
