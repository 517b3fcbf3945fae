import Uzmq.FairQueues

/-!
# Messages from a fair queue are not mixed

While a message is being read `current` stays at its pipe, whose next part is there. The loops of
`recvpipe` and `has_in` only deactivate pipes between messages; what they do to a pipe that has
nothing is the same for both.
-/

namespace Uzmq.FairQueues

open List Function
open Message
open Rota (Ok Holds)

variable {Pipe : Type} [DecidableEq Pipe]

section Sources
variable {s s' : Source} {continued : Bool} {queue : List Msg}

theorem parts_dropWhile (queue : List Msg) :
    parts (queue.dropWhile fun m => m.flags.credential) = parts queue := by
  induction queue with
  | nil => rfl
  | cons m later ih =>
    cases hm : m.flags.credential with
    | true => simpa [dropWhile_cons, hm, parts] using ih
    | false => simp [hm]

theorem Whole.dropWhile (h : Whole continued queue) :
    (queue = [] ∧ continued = false) ∨
      ∃ m later, (queue.dropWhile fun m => m.flags.credential) = m :: later ∧
        (m.isDelimiter = true → continued = false ∧ Whole false later ∧ queue = m :: later) ∧
        (m.isDelimiter = false → Whole m.flags.more later) := by
  induction queue generalizing continued with
  | nil => exact .inl ⟨rfl, h⟩
  | cons m later ih =>
    right
    unfold Whole at h
    split at h
    · rename_i hm
      rcases ih h.2 with ⟨-, hfalse⟩ | ⟨m', later', hdrop, hdelimiter, hpart⟩
      · cases hfalse
      · refine ⟨m', later', by simpa [dropWhile_cons, hm] using hdrop, ?_, hpart⟩
        intro hm'
        cases (hdelimiter hm').1
    · rename_i hm
      refine ⟨m, later, by simp [hm], ?_, ?_⟩
      · intro hdelimiter
        rw [if_pos hdelimiter] at h
        exact ⟨h.1, h.2, rfl⟩
      · intro hpart
        rwa [if_neg (by simp [hpart])] at h

theorem Whole.append {items : List Msg} (h : Whole continued queue) (hitems : Whole false items) :
    Whole continued (queue ++ items) := by
  induction queue generalizing continued with
  | nil =>
    cases h
    exact hitems
  | cons m later ih =>
    rw [cons_append]
    unfold Whole at h ⊢
    by_cases hcredential : m.flags.credential = true
    · rw [if_pos hcredential] at h ⊢
      exact ⟨h.1, ih h.2⟩
    rw [if_neg hcredential] at h ⊢
    by_cases hdelimiter : m.isDelimiter = true
    · rw [if_pos hdelimiter] at h ⊢
      exact ⟨h.1, ih h.2⟩
    · rw [if_neg hdelimiter] at h ⊢
      exact ih h

/-- What an operation on a pipe that has nothing to read leaves there. -/
structure Drained (s s' : Source) : Prop where
  whole : Whole false s.queue → Whole false s'.queue
  parts : parts s'.queue = parts s.queue

theorem drained_read (h : s.read = (none, s')) : Drained s s' := by
  unfold Source.read at h
  split at h
  · cases h
    exact ⟨id, rfl⟩
  split at h
  · rename_i hdrop
    cases h
    constructor
    · intro _
      rfl
    · rw [← parts_dropWhile s.queue, hdrop]
  · rename_i m later hdrop
    split at h
    · rename_i hm
      cases h
      constructor
      · intro hwhole
        rcases hwhole.dropWhile with ⟨hnil, -⟩ | ⟨m', later', hdrop', hdelimiter, -⟩
        · simp [hnil] at hdrop
        · rw [hdrop] at hdrop'
          cases hdrop'
          exact (hdelimiter hm).2.1
      · rw [← parts_dropWhile s.queue, hdrop]
        simp [FairQueues.parts, hm]
    · cases h

theorem drained_checkRead (h : s.checkRead = (none, s')) : Drained s s' := by
  unfold Source.checkRead at h
  split at h
  · cases h
    exact ⟨id, rfl⟩
  split at h
  · rename_i hqueue
    cases h
    exact ⟨id, rfl⟩
  rename_i m later hqueue
  split at h
  · rename_i hm
    cases h
    constructor
    · intro hwhole
      rw [hqueue] at hwhole
      unfold Whole at hwhole
      split at hwhole
      · rw [hm] at hwhole
        cases hwhole.1
      · exact hwhole.2
    · simp [FairQueues.parts, hqueue, hm]
  · cases h

/-- What is left of a pipe a part was read from. -/
structure Taken (s : Source) (m : Msg) (s' : Source) : Prop where
  whole : Whole m.flags.more s'.queue
  parts : parts s.queue = m :: parts s'.queue
  inActive : s'.inActive = true
  readable : s'.readable = true

theorem taken_read {m : Msg} (hwhole : Whole continued s.queue) (h : s.read = (some m, s')) :
    Taken s m s' := by
  unfold Source.read at h
  split at h
  · cases h
  rename_i hpermitted
  obtain ⟨hactive, hreadable⟩ : s.inActive = true ∧ s.readable = true := by
    simpa using hpermitted
  split at h
  · cases h
  rename_i m' later hdrop
  split at h
  · cases h
  rename_i hm
  cases h
  have hm' : m.isDelimiter = false := by simpa using hm
  rcases hwhole.dropWhile with ⟨hnil, -⟩ | ⟨m'', later', hdrop', -, hpart⟩
  · simp [hnil] at hdrop
  rw [hdrop] at hdrop'
  cases hdrop'
  have hfirst : m.flags.credential = false := by
    have := head_dropWhile_not (fun m : Msg => m.flags.credential) (l := s.queue) (by simp [hdrop])
    simpa [hdrop] using this
  constructor
  · exact hpart hm'
  · rw [← parts_dropWhile s.queue, hdrop]
    simp [FairQueues.parts, hfirst, hm']
  · exact hactive
  · exact hreadable

theorem read_continued (hwhole : Whole true s.queue) (hactive : s.inActive = true)
    (hreadable : s.readable = true) : ∃ m s', s.read = (some m, s') := by
  rcases hwhole.dropWhile with ⟨-, hfalse⟩ | ⟨m, later, hdrop, hdelimiter, -⟩
  · cases hfalse
  have hm : m.isDelimiter = false := by
    rw [Bool.eq_false_iff]
    intro hm
    cases (hdelimiter hm).1
  exact ⟨m, _, by simp [Source.read, hactive, hreadable, hdrop, hm]; rfl⟩

theorem read_of_checkRead (hwhole : Whole false s.queue) (h : s.checkRead = (some (), s')) :
    s' = s ∧ ∃ m s'', s.read = (some m, s'') := by
  unfold Source.checkRead at h
  split at h
  · cases h
  rename_i hpermitted
  obtain ⟨hactive, hreadable⟩ : s.inActive = true ∧ s.readable = true := by
    simpa using hpermitted
  split at h
  · cases h
  rename_i first rest hqueue
  split at h
  · cases h
  rename_i hfirst
  cases h
  refine ⟨rfl, ?_⟩
  rcases hwhole.dropWhile with ⟨hnil, -⟩ | ⟨m, later, hdrop, hdelimiter, -⟩
  · simp [hnil] at hqueue
  have hm : m.isDelimiter = false := by
    rw [Bool.eq_false_iff]
    intro hm
    have heq := (hdelimiter hm).2.2
    rw [hqueue] at heq
    cases heq
    exact absurd hm hfirst
  exact ⟨m, _, by simp [Source.read, hactive, hreadable, hdrop, hm]; rfl⟩

end Sources

/-- What holds of the pipes of a rota, also between the attempts of a loop. -/
structure Served (attached : List Pipe) (reading : Option Pipe) (given got : Pipe → List Msg)
    (r : Rota Pipe) (sources : Pipe → Source) : Prop where
  ok : Ok r
  mem : ∀ p, p ∈ r.slots.items ↔ p ∈ attached
  inActive : ∀ p, r.Active p → (sources p).inActive = true
  whole : ∀ p ∈ attached, Whole (decide (reading = some p)) (sources p).queue
  order : ∀ p ∈ attached, given p = got p ++ parts (sources p).queue

/-- In the middle of a message its pipe is the current one. -/
structure Inv (s : System Pipe) : Prop where
  served : Served s.attached s.reading s.given s.got s.fq.rota s.sources
  more : s.fq.more = s.reading.isSome
  reading : ∀ p, s.reading = some p → s.fq.rota.Points p ∧ (s.sources p).readable = true

section Loops
variable {attached : List Pipe} {given got : Pipe → List Msg} {r : Rota Pipe}
  {sources : Pipe → Source}

theorem Served.deactivated {p : Pipe} {r' : Rota Pipe} {source : Source}
    (h : Served attached none given got r sources) (hp : r.Points p)
    (hdrained : Drained (sources p) source) (hr' : r.deactivate (r.slots.index p) = some r') :
    Served attached none given got r' (update sources p source) := by
  obtain ⟨r'', hr'', hholds, -⟩ := h.ok.deactivate hp.active
  rw [hr''] at hr'
  cases hr'
  constructor
  · exact hholds.ok
  · intro q
    rw [hholds.mem, h.mem]
  · intro q hq
    obtain ⟨hq, hne⟩ := (hholds.active q).mp hq
    rw [update_of_ne hne]
    exact h.inActive q hq
  · intro q hq
    have hwhole := h.whole q hq
    rcases eq_or_ne q p with rfl | heq
    · rw [update_self]
      exact hdrained.whole hwhole
    · rwa [update_of_ne heq]
  · intro q hq
    have horder := h.order q hq
    rcases eq_or_ne q p with rfl | heq
    · rwa [update_self, hdrained.parts]
    · rwa [update_of_ne heq]

theorem Served.seek {β : Type} (h : Served attached none given got r sources)
    (op : Source → Option β × Source)
    (hop : ∀ source source', op source = (none, source') → Drained source source') :
    ∃ q, r.seek (Fq.onPipe op) false sources = some q ∧ q.stopped = false ∧
      (q.found = none ∧ Served attached none given got q.rota q.state ∨
        ∃ p b before source, q.found = some (p, b) ∧
          Served attached none given got q.rota before ∧ q.rota.Points p ∧
          op (before p) = (some b, source) ∧ q.state = update before p source) := by
  obtain ⟨q, hq, hstopped⟩ := h.ok.seek_isSome (Fq.onPipe op) sources
  refine ⟨q, hq, hstopped, Rota.seek_cases (f := fun _ => op) (fun _ _ h => h.ok) ?_ h hq nofun⟩
  intro r state p r' source hserved hp hsource hr'
  exact hserved.deactivated hp (hop _ _ hsource) hr'

/-- A part is read from the pipe of the message, or from any pipe between messages. -/
theorem Served.taken {m : Msg} {p : Pipe} {source : Source} {reading : Option Pipe}
    (h : Served attached reading given got r sources) (hp : r.Points p)
    (hread : (sources p).read = (some m, source)) (hreading : ∀ q, reading = some q → q = p) :
    Served attached (if m.flags.more then some p else none) given
      (update got p (got p ++ [m])) r (update sources p source) := by
  have hin : p ∈ attached := (h.mem p).mp (h.ok.mem_of_active hp.active)
  have htaken := taken_read (h.whole p hin) hread
  constructor
  · exact h.ok
  · exact h.mem
  · intro q hq
    rcases eq_or_ne q p with rfl | heq
    · rw [update_self]
      exact htaken.inActive
    · rw [update_of_ne heq]
      exact h.inActive q hq
  · intro q hq
    rcases eq_or_ne q p with rfl | heq
    · rw [update_self]
      have hdecide : decide ((if m.flags.more then some q else none) = some q) = m.flags.more := by
        cases m.flags.more <;> simp
      rw [hdecide]
      exact htaken.whole
    · rw [update_of_ne heq]
      have hbefore : decide (reading = some q) = false :=
        decide_eq_false fun hq => heq (hreading q hq)
      have hafter : decide ((if m.flags.more then some p else none) = some q) = false := by
        cases m.flags.more <;> simp [Ne.symm heq]
      rw [hafter, ← hbefore]
      exact h.whole q hq
  · intro q hq
    have horder := h.order q hq
    rcases eq_or_ne q p with rfl | heq
    · rw [horder, htaken.parts]
      simp
    · simpa only [update_of_ne heq] using horder

end Loops

section Steps
variable {p pipe : Pipe} {s : System Pipe}

theorem inv_new : Inv ({} : System Pipe) := by
  refine ⟨⟨Rota.ok_new, ?_, ?_, ?_, ?_⟩, rfl, ?_⟩
  · intro p
    exact Iff.rfl
  · intro p hp
    cases hp
  · intro p hp
    cases hp
  · intro p hp
    cases hp
  · intro p hp
    cases hp

theorem Inv.fetched {m : Msg} {r : Rota Pipe} {source : Source} {sources : Pipe → Source}
    (h : Served s.attached s.reading s.given s.got r sources) (hp : r.Points p)
    (hread : (sources p).read = (some m, source)) (hreading : ∀ q, s.reading = some q → q = p) :
    Inv (s.received {
      fq := s.fq.fetched r p m, sources := update sources p source
      part := some (p, m) }) := by
  have hin : p ∈ s.attached := (h.mem p).mp (h.ok.mem_of_active hp.active)
  have htaken := taken_read (h.whole p hin) hread
  have hserved := h.taken hp hread hreading
  have hactive : r.active ≠ 0 := by
    have hlt := hp.2
    omega
  cases hmore : m.flags.more with
  | true =>
    simp only [hmore, if_true] at hserved
    simp only [System.received, Fq.fetched, hmore, if_true]
    refine ⟨hserved, rfl, ?_⟩
    rintro q ⟨⟩
    refine ⟨hp, ?_⟩
    simp only [update_self]
    exact htaken.readable
  | false =>
    simp only [hmore, Bool.false_eq_true, if_false] at hserved
    simp only [System.received, Fq.fetched, hmore, Bool.false_eq_true, if_false]
    have hholds := h.ok.advance hactive
    refine ⟨{ hserved with ok := hholds.ok, inActive := ?_ }, rfl, ?_⟩
    · intro q hq
      exact hserved.inActive q ((hholds.active q).mp hq)
    · intro q hq
      cases hq

section
variable (h : Inv s)
include h

theorem Inv.mem_attached (hreading : s.reading = some p) : p ∈ s.attached :=
  (h.served.mem p).mp (h.served.ok.mem_of_active (h.reading p hreading).1.active)

theorem Inv.recv_reading (hreading : s.reading = some p) :
    ∃ r m, s.fq.recvpipe s.sources = some r ∧ r.part = some (p, m) ∧ Inv (s.received r) := by
  obtain ⟨hp, hreadable⟩ := h.reading p hreading
  have hwhole := h.served.whole p (h.mem_attached hreading)
  rw [decide_eq_true hreading] at hwhole
  obtain ⟨m, source, hread⟩ := read_continued hwhole (h.served.inActive p hp.active) hreadable
  have hattempt : Fq.onPipe Source.read p s.sources = (some m, update s.sources p source) := by
    rw [Fq.onPipe, hread]
  refine ⟨_, m, ?_, rfl, Inv.fetched h.served hp hread ?_⟩
  · rw [Fq.recvpipe, h.served.ok.seek_found hp hattempt]
    rfl
  · intro q hq
    rw [hreading] at hq
    exact (Option.some.inj hq).symm

theorem Inv.recv_between (hreading : s.reading = none) :
    ∃ r, s.fq.recvpipe s.sources = some r ∧ (∀ p m, r.part = some (p, m) → p ∈ s.attached) ∧
      Inv (s.received r) := by
  have hmore : s.fq.more = false := by
    rw [h.more, hreading]
    rfl
  have hserved := h.served
  rw [hreading] at hserved
  obtain ⟨q, hq, hstopped, hcases⟩ := hserved.seek Source.read fun _ _ => drained_read
  rcases hcases with ⟨hfound, hafter⟩ | ⟨p, m, before, source, hfound, hbefore, hp, hread, hstate⟩
  · refine ⟨{ fq := { s.fq with rota := q.rota }, sources := q.state, part := none }, ?_, nofun,
      ?_, ?_, ?_⟩
    · rw [Fq.recvpipe, hmore, hq]
      simp [hstopped, hfound, hmore]
    · rw [← hreading] at hafter
      exact hafter
    · exact h.more
    · intro p hp
      cases hreading.symm.trans hp
  · refine ⟨{ fq := s.fq.fetched q.rota p m, sources := q.state, part := some (p, m) }, ?_, ?_, ?_⟩
    · rw [Fq.recvpipe, hmore, hq]
      simp [hstopped, hfound]
    · intro p' m' hpart
      cases hpart
      exact (hbefore.mem p).mp (hbefore.ok.mem_of_active hp.active)
    rw [hstate]
    rw [← hreading] at hbefore
    refine Inv.fetched hbefore hp hread ?_
    intro q' hq'
    rw [hreading] at hq'
    cases hq'

theorem Inv.hasIn : ∃ f sources b, s.fq.hasIn s.sources = some (f, sources, b) ∧
      Inv { s with fq := f, sources := sources } ∧
      (b = true → ∃ r, f.recvpipe sources = some r ∧ r.part.isSome = true) := by
  obtain hreading | ⟨p, hreading⟩ := Option.eq_none_or_eq_some s.reading
  · have hmore : s.fq.more = false := by
      rw [h.more, hreading]
      rfl
    have hserved := h.served
    rw [hreading] at hserved
    obtain ⟨q, hq, hstopped, hcases⟩ := hserved.seek Source.checkRead fun _ _ => drained_checkRead
    have hinv {sources : Pipe → Source}
        (hafter : Served s.attached none s.given s.got q.rota sources) :
        Inv { s with fq := { s.fq with rota := q.rota }, sources := sources } := by
      rw [← hreading] at hafter
      refine ⟨hafter, h.more, ?_⟩
      intro p hp
      cases hreading.symm.trans hp
    refine ⟨{ s.fq with rota := q.rota }, q.state, q.found.isSome, ?_, ?_⟩
    · rw [Fq.hasIn, if_neg (by simp [hmore]), hq]
      rfl
    rcases hcases with ⟨hfound, hafter⟩ |
      ⟨p, u, before, source, hfound, hbefore, hp, hcheck, hstate⟩
    · refine ⟨hinv hafter, ?_⟩
      intro hb
      simp [hfound] at hb
    have hin : p ∈ s.attached := (hbefore.mem p).mp (hbefore.ok.mem_of_active hp.active)
    obtain ⟨rfl, m, source', hread⟩ := read_of_checkRead (hbefore.whole p hin) hcheck
    rw [update_eq_self] at hstate
    rw [hstate]
    refine ⟨hinv hbefore, ?_⟩
    intro _
    have hattempt : Fq.onPipe Source.read p before = (some m, update before p source') := by
      rw [Fq.onPipe, hread]
    exact ⟨_, by rw [Fq.recvpipe, hbefore.ok.seek_found hp hattempt]; rfl, rfl⟩
  · have hmore : s.fq.more = true := by
      rw [h.more, hreading]
      rfl
    refine ⟨s.fq, s.sources, true, by rw [Fq.hasIn, if_pos hmore], h, ?_⟩
    intro _
    obtain ⟨r, m, hr, hpart, -⟩ := h.recv_reading hreading
    exact ⟨r, hr, by rw [hpart]; rfl⟩

theorem Inv.attach {items : List Msg} (hnew : pipe ∉ s.attached) (hitems : Whole false items) :
    ∃ t, step s (.attach pipe items) = some t ∧ Inv t := by
  have hout : pipe ∉ s.fq.rota.slots.items := fun hin => hnew ((h.served.mem pipe).mp hin)
  obtain ⟨r, hr, hholds, hpoints⟩ := h.served.ok.attach hout
  have hreading (q : Pipe) (hq : s.reading = some q) : q ≠ pipe := by
    rintro rfl
    exact hnew (h.mem_attached hq)
  refine ⟨_, by rw [step, Fq.attach, hr]; rfl, ?_⟩
  refine ⟨⟨hholds.ok, ?_, ?_, ?_, ?_⟩, h.more, ?_⟩
  · intro q
    rw [hholds.mem, h.served.mem, mem_cons, or_comm]
  · intro q hq
    by_cases heq : q = pipe
    · simp [heq]
    · simpa [heq] using h.served.inActive q (((hholds.active q).mp hq).resolve_right heq)
  · intro q hq
    rcases eq_or_ne q pipe with rfl | heq
    · have hnot : decide (s.reading = some q) = false :=
        decide_eq_false fun hread => hreading q hread rfl
      simpa [hnot] using hitems
    · simpa [heq] using h.served.whole q ((mem_cons.mp hq).resolve_left heq)
  · intro q hq
    by_cases heq : q = pipe
    · simp [heq]
    · simpa [heq] using h.served.order q ((mem_cons.mp hq).resolve_left heq)
  · intro q hq
    obtain ⟨hp, hreadable⟩ := h.reading q hq
    exact ⟨hpoints q hp, by simpa [hreading q hq] using hreadable⟩

theorem Inv.deliver {items : List Msg} (hitems : Whole false items) :
    ∃ t, step s (.deliver pipe items) = some t ∧ Inv t := by
  refine ⟨_, rfl, ⟨h.served.ok, h.served.mem, ?_, ?_, ?_⟩, h.more, ?_⟩
  · intro q hq
    have hactive := h.served.inActive q hq
    rcases eq_or_ne q pipe with rfl | heq
    · simpa using hactive
    · simpa [heq] using hactive
  · intro q hq
    have hwhole := h.served.whole q hq
    rcases eq_or_ne q pipe with rfl | heq
    · simpa using hwhole.append hitems
    · simpa [heq] using hwhole
  · intro q hq
    have horder := h.served.order q hq
    rcases eq_or_ne q pipe with rfl | heq
    · simp [horder, parts]
    · simpa [heq] using horder
  · intro q hq
    obtain ⟨hp, hreadable⟩ := h.reading q hq
    refine ⟨hp, ?_⟩
    rcases eq_or_ne q pipe with rfl | heq
    · simpa using hreadable
    · simpa [heq] using hreadable

omit h in
theorem Served.reflagged {r' r : Rota Pipe} {source : Source} {reading : Option Pipe}
    {sources : Pipe → Source} {attached : List Pipe} {given got : Pipe → List Msg}
    (h : Served attached reading given got r sources) (hqueue : source.queue = (sources pipe).queue)
    (hholds : Holds r' (· ∈ r.slots.items) fun q => r'.Active q)
    (hactive : ∀ q, r'.Active q → (update sources pipe source q).inActive = true) :
    Served attached reading given got r' (update sources pipe source) := by
  have hsame (q : Pipe) : (update sources pipe source q).queue = (sources q).queue := by
    rcases eq_or_ne q pipe with rfl | heq
    · simpa using hqueue
    · simp [heq]
  constructor
  · exact hholds.ok
  · intro q
    rw [hholds.mem, h.mem]
  · exact hactive
  · intro q hq
    rw [hsame]
    exact h.whole q hq
  · intro q hq
    rw [hsame]
    exact h.order q hq

theorem Inv.close (hnot : s.reading ≠ some pipe) : ∃ t, step s (.close pipe) = some t ∧ Inv t := by
  refine ⟨_, rfl, h.served.reflagged rfl h.served.ok.holds ?_, h.more, ?_⟩
  · intro q hq
    have hactive := h.served.inActive q hq
    rcases eq_or_ne q pipe with rfl | heq
    · simpa using hactive
    · simpa [heq] using hactive
  · intro q hq
    obtain ⟨hp, hreadable⟩ := h.reading q hq
    have hne : q ≠ pipe := by
      rintro rfl
      exact hnot hq
    exact ⟨hp, by simpa [hne] using hreadable⟩

theorem Inv.activateRead (hin : pipe ∈ s.attached) :
    ∃ t, step s (.activateRead pipe) = some t ∧ Inv t := by
  by_cases hpassive : (s.sources pipe).inActive = false ∧ (s.sources pipe).readable = true
  · have hnot : ¬ s.fq.rota.Active pipe := by
      intro hactive
      rw [h.served.inActive pipe hactive] at hpassive
      cases hpassive.1
    obtain ⟨r, hr, hholds, hpoints⟩ := h.served.ok.activate ((h.served.mem pipe).mpr hin) hnot
    refine ⟨_, by rw [step, if_pos hpassive, Fq.activated, hr]; rfl, ?_⟩
    refine ⟨h.served.reflagged rfl { hholds with active := fun _ => Iff.rfl } ?_, h.more, ?_⟩
    · intro q hq
      by_cases heq : q = pipe
      · simp [heq]
      · simpa [heq] using h.served.inActive q (((hholds.active q).mp hq).resolve_right heq)
    · intro q hq
      obtain ⟨hp, hreadable⟩ := h.reading q hq
      refine ⟨hpoints q hp, ?_⟩
      have hne : q ≠ pipe := by
        rintro rfl
        exact hnot hp.active
      simpa [hne] using hreadable
  · exact ⟨s, by rw [step, if_neg hpassive], h⟩

theorem Inv.terminated (hin : pipe ∈ s.attached) (hnot : s.reading ≠ some pipe)
    (hsafe : Safe s.fq pipe) : ∃ t, step s (.terminated pipe) = some t ∧ Inv t := by
  obtain ⟨r, hr, hholds, hpoints⟩ := h.served.ok.remove ((h.served.mem pipe).mpr hin)
  refine ⟨_, by rw [step, Fq.pipeTerminated, hr]; rfl, ?_⟩
  refine ⟨⟨hholds.ok, ?_, ?_, ?_, ?_⟩, h.more, ?_⟩
  · intro q
    rw [hholds.mem, h.served.mem]
    simp
  · intro q hq
    exact h.served.inActive q ((hholds.active q).mp hq).1
  · intro q hq
    exact h.served.whole q (mem_of_mem_filter hq)
  · intro q hq
    exact h.served.order q (mem_of_mem_filter hq)
  · intro q hq
    obtain ⟨hp, hreadable⟩ := h.reading q hq
    have hne : q ≠ pipe := by
      rintro rfl
      exact hnot hq
    have hmore : s.fq.more = true := by
      rw [h.more]
      rw [hq]
      rfl
    exact ⟨hpoints q hp hne (hsafe hmore), hreadable⟩

theorem Inv.step (i : Input Pipe) (hi : Guard s i) : ∃ t, step s i = some t ∧ Inv t := by
  cases i with
  | attach pipe items => exact h.attach hi.1 hi.2
  | deliver pipe items => exact h.deliver hi.2
  | close pipe => exact h.close hi
  | activateRead pipe => exact h.activateRead hi
  | terminated pipe => exact h.terminated hi.1 hi.2.1 hi.2.2
  | recv =>
    cases hreading : s.reading with
    | some p =>
      obtain ⟨r, m, hr, -, hinv⟩ := h.recv_reading hreading
      exact ⟨_, by rw [FairQueues.step, hr, Option.map_some], hinv⟩
    | none =>
      obtain ⟨r, hr, -, hinv⟩ := h.recv_between hreading
      exact ⟨_, by rw [FairQueues.step, hr, Option.map_some], hinv⟩
  | hasIn =>
    obtain ⟨f, sources, b, hhas, hinv, -⟩ := h.hasIn
    exact ⟨_, by rw [FairQueues.step, hhas, Option.map_some], hinv⟩

end

end Steps

/-- What holds of the queue even if messages are mixed. -/
structure Fair (s : System Pipe) : Prop where
  ok : Ok s.fq.rota
  mem : ∀ p, p ∈ s.fq.rota.slots.items ↔ p ∈ s.attached
  inActive : ∀ p, s.fq.rota.Active p → (s.sources p).inActive = true

section Fairness
variable {s t : System Pipe} {pipe : Pipe}

theorem Inv.fair (h : Inv s) : Fair s := { h.served with }

omit [DecidableEq Pipe] in
theorem inActive_of_read {m : Msg} {source source' : Source} (h : source.read = (some m, source')) :
    source'.inActive = source.inActive := by
  unfold Source.read at h
  split at h
  · cases h
  split at h
  · cases h
  · split at h
    · cases h
    · cases h
      rfl

section
variable (h : Fair s)
include h

theorem Fair.setSource (pipe : Pipe) (source : Source)
    (hsource : s.fq.rota.Active pipe → source.inActive = true) :
    Fair { s with sources := update s.sources pipe source } := by
  refine ⟨h.ok, h.mem, ?_⟩
  intro q hq
  rcases eq_or_ne q pipe with rfl | heq
  · simpa using hsource hq
  · simpa [heq] using h.inActive q hq

theorem Fair.attach (items : List Msg) (hnew : pipe ∉ s.attached) :
    ∃ t, step s (.attach pipe items) = some t ∧ Fair t ∧ t.attached = pipe :: s.attached ∧
      t.reading = s.reading := by
  obtain ⟨r, hr, hholds, -⟩ := h.ok.attach fun hin => hnew ((h.mem pipe).mp hin)
  refine ⟨_, by rw [step, Fq.attach, hr]; rfl, ?_⟩
  refine ⟨⟨hholds.ok, ?_, ?_⟩, rfl, rfl⟩
  · intro q
    rw [hholds.mem, h.mem, mem_cons, or_comm]
  · intro q hq
    by_cases heq : q = pipe
    · simp [heq]
    · simpa [heq] using h.inActive q (((hholds.active q).mp hq).resolve_right heq)

theorem Fair.terminated (hin : pipe ∈ s.attached) :
    ∃ t, step s (.terminated pipe) = some t ∧ Fair t ∧
      t.attached = s.attached.filter (fun q => q ≠ pipe) ∧ t.sources = s.sources := by
  obtain ⟨r, hr, hholds, -⟩ := h.ok.remove ((h.mem pipe).mpr hin)
  refine ⟨_, by rw [step, Fq.pipeTerminated, hr]; rfl, ?_⟩
  refine ⟨⟨hholds.ok, ?_, ?_⟩, rfl, rfl⟩
  · intro q
    rw [hholds.mem, h.mem]
    simp
  · intro q hq
    exact h.inActive q ((hholds.active q).mp hq).1

theorem Fair.activateRead (hin : pipe ∈ s.attached) :
    ∃ t, step s (.activateRead pipe) = some t ∧ Fair t ∧ t.attached = s.attached := by
  by_cases hpassive : (s.sources pipe).inActive = false ∧ (s.sources pipe).readable = true
  · have hnot : ¬ s.fq.rota.Active pipe := by
      intro hactive
      rw [h.inActive pipe hactive] at hpassive
      cases hpassive.1
    obtain ⟨r, hr, hholds, -⟩ := h.ok.activate ((h.mem pipe).mpr hin) hnot
    refine ⟨_, by rw [step, if_pos hpassive, Fq.activated, hr]; rfl, ?_⟩
    refine ⟨⟨hholds.ok, ?_, ?_⟩, rfl⟩
    · intro q
      rw [hholds.mem, h.mem]
    · intro q hq
      by_cases heq : q = pipe
      · simp [heq]
      · simpa [heq] using h.inActive q (((hholds.active q).mp hq).resolve_right heq)
  · exact ⟨s, by rw [step, if_neg hpassive], h, rfl⟩

theorem Fair.seek {β : Type} {strict : Bool} {q : Rota.Sought Pipe β (Pipe → Source)}
    (op : Source → Option β × Source)
    (hop : ∀ source b source', op source = (some b, source') → source'.inActive = source.inActive)
    (hq : s.fq.rota.seek (Fq.onPipe op) strict s.sources = some q)
    (hrun : strict = true → q.stopped = false) :
    Fair { s with fq := { s.fq with rota := q.rota }, sources := q.state } ∧
      (∀ p ∉ s.attached, q.state p = s.sources p) ∧
      ∀ p b, q.found = some (p, b) → q.rota.Points p := by
  have hne {r : Rota Pipe} {sources : Pipe → Source} {p p' : Pipe}
      (hI : Fair { s with fq := { s.fq with rota := r }, sources := sources }) (hp : r.Points p)
      (hp' : p' ∉ s.attached) : p' ≠ p := by
    rintro rfl
    exact hp' ((hI.mem p').mp (hI.ok.mem_of_active hp.active))
  have hcases := Rota.seek_cases (f := fun _ => op)
    (I := fun r sources => Fair { s with fq := { s.fq with rota := r }, sources := sources } ∧
      ∀ p ∉ s.attached, sources p = s.sources p)
    (fun _ _ h => h.1.ok) (by
      rintro r sources p r' source ⟨hI, hout⟩ hp - hr'
      obtain ⟨r'', hr'', hholds, -⟩ := hI.ok.deactivate hp.active
      cases hr'.symm.trans hr''
      refine ⟨⟨hholds.ok, ?_, ?_⟩, ?_⟩
      · intro q
        rw [hholds.mem, hI.mem]
      · intro q hq
        obtain ⟨hq, hne⟩ := (hholds.active q).mp hq
        dsimp only
        rw [update_of_ne hne]
        exact hI.inActive q hq
      · intro q hq
        rw [update_of_ne (hne hI hp hq)]
        exact hout q hq) ⟨h, fun _ _ => rfl⟩ hq hrun
  rcases hcases with ⟨hfound, hI, hout⟩ |
    ⟨p, b, before, source, hfound, ⟨hI, hout⟩, hp, hread, hstate⟩
  · refine ⟨hI, hout, ?_⟩
    intro p b hp
    cases hfound.symm.trans hp
  rw [hstate]
  refine ⟨hI.setSource p source ?_, ?_, ?_⟩
  · intro hactive
    rw [hop _ b _ hread]
    exact hI.inActive p hactive
  · intro q hq
    rw [update_of_ne (hne hI hp hq)]
    exact hout q hq
  · intro p' b' hp'
    cases hfound.symm.trans hp'
    exact hp

theorem Fair.recvpipe {received : Fq.Received Pipe}
    (hrecv : s.fq.recvpipe s.sources = some received) :
    Fair (s.received received) ∧ (s.received received).attached = s.attached ∧
      ∀ p ∉ s.attached, received.sources p = s.sources p := by
  unfold Fq.recvpipe at hrecv
  split at hrecv
  · cases hrecv
  rename_i q hq
  split at hrecv
  · cases hrecv
  rename_i hrun
  obtain ⟨hI, hout, hpoints⟩ :=
    h.seek _ (fun _ _ _ => inActive_of_read) hq fun _ => by simpa using hrun
  split at hrecv
  · cases hrecv
    exact ⟨{ hI with }, rfl, hout⟩
  rename_i p m hfound
  cases hrecv
  refine ⟨?_, rfl, hout⟩
  cases hmore : m.flags.more with
  | true =>
    simp only [System.received, Fq.fetched, hmore, if_true]
    exact { hI with }
  | false =>
    have hlt := (hpoints p m hfound).2
    have hholds := hI.ok.advance (by dsimp only; omega)
    simp only [System.received, Fq.fetched, hmore, Bool.false_eq_true, if_false]
    refine ⟨hholds.ok, hI.mem, ?_⟩
    intro q' hq'
    exact hI.inActive q' ((hholds.active q').mp hq')

end

end Fairness

/-- No assertion fails in the next call; the next part of a message that is being read comes from
its pipe; what was returned from a pipe and what is still there is what the pipe was given; and if
`has_in` finds something it can be received. -/
structure Atomic (s : System Pipe) : Prop where
  total : ∀ i, Guard s i → ∃ t, step s i = some t
  contiguous : ∀ p, s.reading = some p →
    ∃ r m, s.fq.recvpipe s.sources = some r ∧ r.part = some (p, m)
  order : ∀ p ∈ s.attached, s.given p = s.got p ++ parts (s.sources p).queue
  hasIn : ∀ f sources, s.fq.hasIn s.sources = some (f, sources, true) →
    ∃ r, f.recvpipe sources = some r ∧ r.part.isSome = true

theorem Inv.atomic {s : System Pipe} (h : Inv s) : Atomic s := by
  constructor
  · intro i hi
    obtain ⟨t, ht, -⟩ := h.step i hi
    exact ⟨t, ht⟩
  · intro p hp
    obtain ⟨r, m, hr, hpart, -⟩ := h.recv_reading hp
    exact ⟨r, m, hr, hpart⟩
  · exact h.served.order
  · intro f sources hhas
    obtain ⟨f', sources', b, hhas', -, hrecv⟩ := h.hasIn
    rw [hhas] at hhas'
    cases hhas'
    exact hrecv rfl

/-- In every run in which no other active pipe but the first one goes away while a message is
read from the last active one, messages are not mixed. -/
theorem atomic_of_reach {s : System Pipe} (h : Runs.Reach (· = {}) Guard step s) : Atomic s := by
  refine Inv.atomic (h.invariant_of_progress ?_ ?_)
  · rintro s rfl
    exact inv_new
  · intro s i hinv hi
    exact hinv.step i hi

/-- A message is read from the last active pipe, after a pipe without messages was deactivated.
The first pipe goes away between its parts. -/
def partedRun : List (Input Nat) :=
  [.attach 0 [{ data := [10] }, { data := [11] }], .attach 1 [],
    .attach 2 [{ data := [20], flags := { more := true } }, { data := [21] }], .hasIn,
    .recv, .recv, .deliver 1 [{ data := [30] }], .terminated 0, .activateRead 1]

theorem partedRun_atomic :
    ∃ s : System Nat, Runs.Reach (· = {}) Guard step s ∧ s.reading = some 2 ∧
      s.got 2 = [{ data := [20], flags := { more := true } }] ∧ Atomic s := by
  refine Runs.Reach.of_exec_two (s := {}) Guard step partedRun ?_ rfl fun s hs => atomic_of_reach hs
  decide +kernel

/-- The second of three pipes goes away while a message is read from the third one; the next part
is taken from the first one. -/
theorem terminated_between_parts :
    ∃ s ∈ Runs.exec Runs.Always step ({} : System Nat)
        [.attach 0 [{ data := [10] }, { data := [11] }], .attach 1 [{ data := [30] }],
          .attach 2 [{ data := [20], flags := { more := true } }, { data := [21] }],
          .recv, .recv, .recv, .terminated 1],
      s.reading = some 2 ∧
        (s.fq.recvpipe s.sources).bind (·.part) = some (0, { data := [11] }) := by
  decide +kernel

end Uzmq.FairQueues
