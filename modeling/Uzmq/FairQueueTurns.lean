import Uzmq.FairQueueAtomicity

/-!
# Waiting for a turn in a fair queue

Before an item of a rota has its turn the position passes the items from there up to it, around
the end of the active region if the item is below. An item that is deactivated is replaced by the
last active one, which thereby comes nearer to its turn, and items are activated behind all the
others. So the turns that have passed and those still to come are never more than there are items.
-/

namespace Uzmq

namespace Rota
variable {α : Type} [DecidableEq α] {r r' : Rota α} {a b : α} {k : Nat}

/-- The item is active, and after `k` turns of others there are less turns before its own than
there are other items left. -/
structure Due (r : Rota α) (a : α) (k : Nat) : Prop where
  active : r.slots.index a < r.active
  turns : k + r.slots.index a < r.current +
    if r.slots.index a < r.current then 0 else r.slots.size

theorem Due.lt_size (h : Due r a k) (hok : Ok r) : k < r.slots.size := by
  have hle := hok.active_le
  have hactive := h.active
  have hturns := h.turns
  rcases hok.current_lt with hlt | ⟨hzero, -⟩
  · split at hturns <;> omega
  · omega

omit [DecidableEq α] in
theorem advance_current (h : r.current < r.active) :
    r.advance.current = if r.current + 1 = r.active then 0 else r.current + 1 := by
  unfold advance
  split
  · rename_i hlast
    simp [hlast]
  · exact Nat.mod_eq_of_lt (by omega)

theorem Points.due_advance (h : r.Points a) (hok : Ok r) : Due r.advance a 0 := by
  have hle := hok.active_le
  have hindex := h.1
  have hlt := h.2
  refine ⟨h.active, ?_⟩
  rw [advance_current hlt]
  change 0 + r.slots.index a < _ + if r.slots.index a < _ then 0 else r.slots.size
  split <;> split <;> omega

theorem Due.advance (h : Due r a k) (hok : Ok r) (hb : r.Points b) (hne : b ≠ a) :
    Due r.advance a (k + 1) := by
  have hle := hok.active_le
  have hactive := h.active
  have hturns := h.turns
  have hlt := hb.2
  have hother : r.slots.index a ≠ r.current := fun heq =>
    hne (Points.inj hok hb ⟨heq, hlt⟩)
  refine ⟨hactive, ?_⟩
  rw [advance_current hlt]
  change k + 1 + r.slots.index a < _ + if r.slots.index a < _ then 0 else r.slots.size
  split at hturns <;> split <;> split <;> omega

theorem Due.deactivate (h : Due r a k) (hok : Ok r) (hb : r.Points b) (hne : b ≠ a)
    (hr' : r.deactivate (r.slots.index b) = some r') : Due r' a k := by
  have hle := hok.active_le
  have hactive := h.active
  have hturns := h.turns
  have hlt := hb.2
  have hother : r.slots.index a ≠ r.current := fun heq =>
    hne (Points.inj hok hb ⟨heq, hlt⟩)
  rw [hb.1, Rota.deactivate, if_neg (by omega)] at hr'
  obtain ⟨slots, hslots, rfl⟩ := Option.map_eq_some_iff.mp hr'
  have hswap := Slots.swapped_of_swap hslots
  have hsize := hswap.size
  have hindex := hswap.index a
  rw [if_neg hother] at hindex
  constructor
  · change slots.index a < r.active - 1
    split at hindex <;> omega
  · dsimp only
    split at hturns <;> split at hindex <;> split <;> split <;> omega

theorem Due.activate (h : Due r a k) (hb : ¬ r.Active b) (hr' : r.activate b = some r') :
    Due r' a k := by
  have hactive := h.active
  obtain ⟨slots, hslots, rfl⟩ := Option.map_eq_some_iff.mp hr'
  have hswap := Slots.swapped_of_swap hslots
  have hindex := hswap.index a
  have hother : r.slots.index a ≠ r.slots.index b := fun heq =>
    hb (show r.slots.index b < r.active from heq ▸ hactive)
  rw [if_neg hother, if_neg (by omega)] at hindex
  constructor
  · change slots.index a < r.active + 1
    omega
  · dsimp only
    rw [hindex, hswap.size]
    exact h.turns

end Rota

namespace FairQueues

open Function
open Rota (Ok)

variable {Pipe : Type} [DecidableEq Pipe] {p : Pipe} {s t : System Pipe} {k : Nat}

/-- There is a part for the reader, which it finds if the pipe is active. -/
def Source.available (s : Source) : Bool :=
  { s with inActive := true }.checkRead.1.isSome && { s with inActive := true }.read.1.isSome

/-- Pipes are attached once, and the others are those that are attached. -/
def Known (s : System Pipe) : Input Pipe → Prop
  | .attach pipe _ => pipe ∉ s.attached
  | .activateRead pipe => pipe ∈ s.attached
  | .terminated pipe => pipe ∈ s.attached
  | _ => True

instance (s : System Pipe) (i : Input Pipe) : Decidable (Known s i) := by
  induction i using Input.casesOn <;> dsimp only [Known] <;> infer_instance

/-- The number of complete messages from other pipes since the last one from a pipe. -/
def count (p : Pipe) (s : System Pipe) (others : Option Nat) : Input Pipe → Option Nat
  | .attach _ _ => none
  | .terminated _ => none
  | .recv =>
    match (s.fq.recvpipe s.sources).bind (·.part) with
    | none => others
    | some (pipe, m) =>
      if m.flags.more then others
      else if pipe = p then some 0
      else others.map (· + 1)
  | _ => others

/-- A fair queue of which one pipe is watched. There is a count as long as no pipe is attached or
terminated and the pipe that is watched always has a message. -/
structure Watch (Pipe : Type) where
  system : System Pipe := {}
  others : Option Nat := none

def Watch.step (p : Pipe) (w : Watch Pipe) (i : Input Pipe) : Option (Watch Pipe) :=
  (FairQueues.step w.system i).map fun t =>
    { system := t
      others := if (t.sources p).available then count p w.system w.others i else none }

section Seeking
variable {β : Type} {strict : Bool} {r : Rota Pipe} {sources : Pipe → Source}
  {q : Rota.Sought Pipe β (Pipe → Source)}

theorem due_seek (hok : Ok r) (hdue : r.Due p k) (op : Source → Option β × Source)
    (hp : (op (sources p)).1.isSome = true) (hq : r.seek (Fq.onPipe op) strict sources = some q)
    (hrun : strict = true → q.stopped = false) : q.rota.Due p k := by
  have hcases := Rota.seek_cases (f := fun _ => op)
    (I := fun r state => Ok r ∧ r.Due p k ∧ state p = sources p) (fun _ _ h => h.1) (by
      rintro r state a r' source ⟨hok, hdue, hsame⟩ ha hsource hr'
      have hne : a ≠ p := by
        rintro rfl
        rw [← hsame, hsource] at hp
        cases hp
      obtain ⟨r'', hr'', hholds, -⟩ := hok.deactivate ha.active
      cases hr'.symm.trans hr''
      exact ⟨hholds.ok, hdue.deactivate hok ha hne hr', (update_of_ne hne.symm ..).trans hsame⟩)
    ⟨hok, hdue, rfl⟩ hq hrun
  rcases hcases with ⟨-, -, hdue, -⟩ | ⟨a, b, before, source, -, ⟨-, hdue, -⟩, -⟩ <;> exact hdue

end Seeking

section Steps

/-- The watched pipe is active and has a message. -/
structure Waits (p : Pipe) (s : System Pipe) (k : Nat) : Prop where
  due : s.fq.rota.Due p k
  available : (s.sources p).available = true

theorem Waits.isSome (h : Waits p s k) (hfair : Fair s) :
    (s.sources p).checkRead.1.isSome = true ∧ (s.sources p).read.1.isSome = true := by
  have hsame : { s.sources p with inActive := true } = s.sources p := by
    rw [← hfair.inActive p h.due.active]
  have havailable := h.available
  unfold Source.available at havailable
  rwa [hsame, Bool.and_eq_true] at havailable

theorem inActive_of_checkRead (source : Source) (b : Unit) (source' : Source)
    (h : source.checkRead = (some b, source')) : source'.inActive = source.inActive := by
  unfold Source.checkRead at h
  split at h
  · cases h
  split at h
  · cases h
  · split at h
    · cases h
    · cases h
      rfl

theorem Fair.hasIn (h : Fair s) (ht : step s .hasIn = some t) :
    Fair t ∧ ∀ p k, Waits p s k → t.fq.rota.Due p k := by
  obtain ⟨⟨f, sources, found⟩, hhas, rfl⟩ := Option.map_eq_some_iff.mp ht
  unfold Fq.hasIn at hhas
  split at hhas
  · cases hhas
    exact ⟨h, fun p k hk => hk.due⟩
  · obtain ⟨q, hq, hr⟩ := Option.map_eq_some_iff.mp hhas
    cases hr
    refine ⟨{ (h.seek _ inActive_of_checkRead hq nofun).1 with }, ?_⟩
    intro p k hk
    exact due_seek h.ok hk.due _ (hk.isSome h).1 hq nofun

theorem Fair.recv_due {others : Option Nat} (h : Fair s) (ht : step s .recv = some t)
    (hothers : ∀ k, others = some k → Waits p s k) (hk : count p s others .recv = some k) :
    t.fq.rota.Due p k := by
  obtain ⟨received, hrecv, rfl⟩ := Option.map_eq_some_iff.mp ht
  unfold count at hk
  rw [hrecv] at hk
  unfold Fq.recvpipe at hrecv
  split at hrecv
  · cases hrecv
  rename_i q hq
  split at hrecv
  · cases hrecv
  rename_i hstop
  have hrun (_ : s.fq.more = true) : q.stopped = false := by simpa using hstop
  obtain ⟨hfair, -, hpoints⟩ := h.seek _ (fun _ _ _ => inActive_of_read) hq hrun
  have hdue (k : Nat) (hk : others = some k) : q.rota.Due p k :=
    due_seek h.ok (hothers k hk).due _ ((hothers k hk).isSome h).2 hq hrun
  split at hrecv
  · cases hrecv
    exact hdue k hk
  rename_i pipe m hfound
  cases hrecv
  have hpipe := hpoints pipe m hfound
  simp only [Option.bind_some] at hk
  cases hmore : m.flags.more with
  | true =>
    simp only [hmore, if_true] at hk
    simp only [System.received, Fq.fetched, hmore, if_true]
    exact hdue k hk
  | false =>
    simp only [hmore, Bool.false_eq_true, if_false] at hk
    simp only [System.received, Fq.fetched, hmore, Bool.false_eq_true, if_false]
    split at hk
    · rename_i heq
      cases hk
      rw [heq] at hpipe
      exact hpipe.due_advance hfair.ok
    · rename_i hne
      obtain ⟨n, hn, rfl⟩ := Option.map_eq_some_iff.mp hk
      exact (hdue n hn).advance hfair.ok hpipe hne

theorem Waits.activateRead {pipe : Pipe} (h : Waits p s k) (hfair : Fair s)
    (ht : step s (.activateRead pipe) = some t) : t.fq.rota.Due p k := by
  rw [FairQueues.step] at ht
  split at ht
  · rename_i hpassive
    have hnot : ¬ s.fq.rota.Active pipe := by
      intro hactive
      rw [hfair.inActive pipe hactive] at hpassive
      cases hpassive.1
    obtain ⟨f, hf, rfl⟩ := Option.map_eq_some_iff.mp ht
    obtain ⟨r, hr, rfl⟩ := Option.map_eq_some_iff.mp hf
    exact h.due.activate hnot hr
  · cases ht
    exact h.due

theorem Fair.step {i : Input Pipe} (h : Fair s) (hi : Known s i) (ht : step s i = some t) :
    Fair t := by
  cases i with
  | attach pipe items =>
    obtain ⟨t', ht', hfair, -⟩ := h.attach items hi
    cases ht.symm.trans ht'
    exact hfair
  | deliver pipe items =>
    cases ht
    have hfair := h.setSource pipe
      { s.sources pipe with queue := (s.sources pipe).queue ++ items } (h.inActive pipe)
    exact { hfair with }
  | close pipe =>
    cases ht
    exact h.setSource pipe { s.sources pipe with readable := false } (h.inActive pipe)
  | activateRead pipe =>
    obtain ⟨t', ht', hfair, -⟩ := h.activateRead hi
    cases ht.symm.trans ht'
    exact hfair
  | terminated pipe =>
    obtain ⟨t', ht', hfair, -⟩ := h.terminated hi
    cases ht.symm.trans ht'
    exact hfair
  | recv =>
    obtain ⟨received, hrecv, rfl⟩ := Option.map_eq_some_iff.mp ht
    exact (h.recvpipe hrecv).1
  | hasIn => exact (h.hasIn ht).1

end Steps

/-- The count is about a pipe that is waiting. -/
structure Watched (p : Pipe) (w : Watch Pipe) : Prop where
  fair : Fair w.system
  waits : ∀ k, w.others = some k → Waits p w.system k

theorem Watched.step {w w' : Watch Pipe} {i : Input Pipe} (h : Watched p w)
    (hi : Known w.system i) (hstep : w.step p i = some w') : Watched p w' := by
  obtain ⟨t, ht, rfl⟩ := Option.map_eq_some_iff.mp hstep
  refine ⟨h.fair.step hi ht, ?_⟩
  intro k hk
  dsimp only at hk ⊢
  split at hk
  case isFalse => cases hk
  rename_i havailable
  refine ⟨?_, havailable⟩
  cases i with
  | attach | terminated => cases hk
  | deliver | close =>
    cases ht
    exact (h.waits k hk).due
  | activateRead pipe => exact (h.waits k hk).activateRead h.fair ht
  | hasIn => exact (h.fair.hasIn ht).2 p k (h.waits k hk)
  | recv => exact h.fair.recv_due ht h.waits hk

/-- While no pipe is attached or terminated, between two messages from a pipe that always has one
there is at most one less from the others than there are pipes. -/
theorem others_lt_of_reach {w : Watch Pipe}
    (h : Runs.Reach (· = {}) (fun w => Known w.system) (Watch.step p) w)
    (hk : w.others = some k) : k < w.system.fq.rota.slots.size := by
  have hwatched : Watched p w := by
    refine h.invariant ?_ ?_
    · rintro w rfl
      exact ⟨inv_new.fair, nofun⟩
    · intro w i w' hw hi ht
      exact hw.step hi ht
  exact (hwatched.waits k hk).due.lt_size hwatched.fair.ok

/-- Two messages from other pipes come between those of the first one, although the third pipe is
active only after the first message. -/
theorem others_lt_of_reach_first :
    ∃ w : Watch Nat, Runs.Reach (· = {}) (fun w => Known w.system) (Watch.step 0) w ∧
      w.others = some 2 ∧ 2 < w.system.fq.rota.slots.size := by
  have hrun : ∃ w : Watch Nat, Runs.Reach (· = {}) (fun w => Known w.system) (Watch.step 0) w ∧
      w.others = some 2 := by
    refine Runs.Reach.of_exec (s := {}) (fun w => Known w.system) (Watch.step 0)
      [.attach 0 [{ data := [10] }, { data := [11] }], .attach 2 [], .attach 1 [{ data := [20] }],
        .recv, .hasIn, .deliver 2 [{ data := [30] }], .activateRead 2, .recv, .recv] ?_ ?_
    · decide +kernel
    · rfl
  obtain ⟨w, hreach, hothers⟩ := hrun
  exact ⟨w, hreach, hothers, others_lt_of_reach hreach hothers⟩

end FairQueues

end Uzmq
