import Uzmq.Reps

/-!
# The pipes of a reply socket

What happens to the pipes between the calls of the user, and what a receipt from the fair queue
does. Routing ids stand between messages, so that in the middle of a message its next part comes.
Without the options of routers, a pipe only gets its routing id when it is identified.
-/

namespace Uzmq.Reps

open Option List Function
open Message
open FairQueues (Source Whole parts)
open Routers (Router Sink Table Frame Fetched)

variable {Pipe : Type} [DecidableEq Pipe] {continued : Bool} {queue items : List Msg}
  {source source' : Source} {m : Msg} {q' : FairQueues.System Pipe}

section Labels

/-- Whether the message goes on after the given parts; routing ids do not count. -/
def opened : Bool → List Msg → Bool
  | continued, [] => continued
  | continued, m :: later =>
    if m.flags.routingId then opened continued later else opened m.flags.more later

theorem opened_append (continued : Bool) (l₁ l₂ : List Msg) :
    opened continued (l₁ ++ l₂) = opened (opened continued l₁) l₂ := by
  induction l₁ generalizing continued with
  | nil => rfl
  | cons m later ih =>
    rw [cons_append, opened, opened]
    split
    · exact ih continued
    · exact ih m.flags.more

theorem labelled_append {l₁ l₂ : List Msg} :
    Labelled continued (l₁ ++ l₂) ↔ Labelled continued l₁ ∧ Labelled (opened continued l₁) l₂ := by
  induction l₁ generalizing continued with
  | nil => simp [Labelled, opened]
  | cons m later ih =>
    rw [cons_append, Labelled, Labelled, opened]
    split
    · rw [ih]
      cases continued <;> simp
    · exact ih

theorem Labelled.mono {frames : List Msg} (h : Labelled true frames) : Labelled false frames := by
  cases frames with
  | nil => trivial
  | cons m later =>
    rw [Labelled] at h ⊢
    split at h
    · cases h.1
    · rename_i hm
      rwa [if_neg hm]

theorem whole_mono (h : Whole true queue) : Whole false queue := by
  cases queue with
  | nil => cases h
  | cons m later =>
    unfold Whole at h ⊢
    by_cases hm : m.flags.credential = true
    · simpa only [hm, if_true] using h
    · by_cases hdelimiter : m.isDelimiter = true
      · simp [hdelimiter] at h
      · simpa [hdelimiter] using h

/-- Whole messages with routing ids between them do not go on. -/
theorem opened_parts {whole : Bool} (h : Whole whole queue)
    (hlabelled : Labelled continued (parts queue)) (hle : continued = true → whole = true) :
    opened continued (parts queue) = false := by
  induction queue generalizing whole continued with
  | nil =>
    cases h
    simpa [parts, opened] using hle
  | cons m later ih =>
    unfold Whole at h
    by_cases hcredential : m.flags.credential = true
    · have hskip : parts (m :: later) = parts later := by simp [parts, hcredential]
      rw [hskip] at hlabelled ⊢
      rw [if_pos hcredential] at h
      exact ih h.2 hlabelled fun _ => rfl
    · rw [if_neg hcredential] at h
      by_cases hdelimiter : m.isDelimiter = true
      · have hskip : parts (m :: later) = parts later := by simp [parts, hdelimiter]
        rw [hskip] at hlabelled ⊢
        rw [if_pos hdelimiter] at h
        obtain ⟨rfl, hwhole⟩ := h
        exact ih hwhole hlabelled hle
      · have hcons : parts (m :: later) = m :: parts later := by
          simp [parts, hcredential, hdelimiter]
        rw [hcons, Labelled] at hlabelled
        rw [hcons, opened]
        rw [if_neg hdelimiter] at h
        split at hlabelled
        · rename_i hid
          obtain ⟨rfl, hlater⟩ := hlabelled
          rw [if_pos hid]
          exact ih h hlater nofun
        · rename_i hid
          rw [if_neg hid]
          exact ih h hlabelled id

theorem Batch.not_open (h : Batch items) : opened false (parts items) = false :=
  opened_parts h.1 h.2 id

theorem Batch.read (h : Batch source.queue) (hread : source.read = (some m, source')) :
    Batch source'.queue := by
  have htaken := FairQueues.taken_read h.1 hread
  have hlabelled := h.2
  rw [htaken.parts, Labelled] at hlabelled
  constructor
  · have hwhole := htaken.whole
    cases hm : m.flags.more with
    | true =>
      rw [hm] at hwhole
      exact whole_mono hwhole
    | false => rwa [hm] at hwhole
  · split at hlabelled
    · exact hlabelled.2
    cases hm : m.flags.more with
    | true =>
      rw [hm] at hlabelled
      exact hlabelled.mono
    | false => rwa [hm] at hlabelled

theorem Batch.drained (h : Batch source.queue) (hdrained : FairQueues.Drained source source') :
    Batch source'.queue :=
  ⟨hdrained.whole h.1, by rw [hdrained.parts]; exact h.2⟩

theorem Batch.append {items' : List Msg} (h : Batch items) (h' : Batch items') :
    Batch (items ++ items') := by
  refine ⟨h.1.append h'.1, ?_⟩
  have hparts : parts (items ++ items') = parts items ++ parts items' := filter_append ..
  rw [hparts, labelled_append, h.not_open]
  exact ⟨h.2, h'.2⟩

end Labels

/-- The reading side, in the middle of a message of the given pipe or between messages. -/
structure Stream (q : FairQueues.System Pipe) (mid : Option Pipe) : Prop where
  inv : FairQueues.Inv q
  labelled : ∀ p ∈ q.attached, Labelled false (q.given p)
  closed : ∀ p ∈ q.attached, opened false (q.given p) = false
  inside : ∀ p ∈ q.attached, opened false (q.got p) = decide (mid = some p)
  reading : ∀ p, mid = some p → q.reading = some p

section Streams
variable {q : FairQueues.System Pipe} {mid : Option Pipe} {pipe : Pipe}

theorem Stream.mem (h : Stream q mid) (hmid : mid = some pipe) : pipe ∈ q.attached :=
  h.inv.mem_attached (h.reading pipe hmid)

/-- The parts that are not routing ids. -/
def content (frames : List Msg) : List Msg := frames.filter fun m => !m.flags.routingId

/-- What a receipt leaves: nothing was there, or a part has come, which is the next one of the
message in progress. -/
structure Got (q : FairQueues.System Pipe) (mid : Option Pipe) (q' : FairQueues.System Pipe)
    (part : Option (Pipe × Msg)) : Prop where
  attached : q'.attached = q.attached
  empty : part = none → mid = none ∧ Stream q' none ∧ q'.got = q.got
  part : ∀ p m, part = some (p, m) →
    p ∈ q.attached ∧ (mid = none ∨ mid = some p) ∧
      q'.got = update q.got p (q.got p ++ [m]) ∧
      (m.flags.routingId = true → mid = none ∧ Stream q' none) ∧
      (m.flags.routingId = false → Stream q' (if m.flags.more then some p else none))

theorem Stream.got_part (h : Stream q mid) {r : FairQueues.Fq.Received Pipe} {p : Pipe}
    (hinv : FairQueues.Inv (q.received r)) (hpart : r.part = some (p, m)) (hin : p ∈ q.attached)
    (hmid : mid = none ∨ mid = some p) : Got q mid (q.received r) r.part := by
  have heq : q.received r = { q with
      fq := r.fq, sources := r.sources
      reading := if m.flags.more then some p else none
      got := update q.got p (q.got p ++ [m]) } := by
    rw [FairQueues.System.received, hpart]
  rw [heq] at hinv ⊢
  have hother (p' : Pipe) (hne : p' ≠ p) : decide (mid = some p') = false := by
    refine decide_eq_false ?_
    rcases hmid with rfl | rfl
    · rintro ⟨⟩
    · exact fun hp => hne (some.inj hp).symm
  -- The part is the next one of those the pipe was given.
  have hnext : Labelled (opened false (q.got p)) [m] := by
    have horder := hinv.served.order p hin
    simp only [update_self] at horder
    have hlabelled := h.labelled p hin
    rw [horder, labelled_append, labelled_append] at hlabelled
    exact hlabelled.1.2
  refine ⟨rfl, fun hnone => absurd (hpart.symm.trans hnone) (by simp), ?_⟩
  rintro p' m' hpart'
  cases hpart.symm.trans hpart'
  refine ⟨hin, hmid, rfl, ?_, ?_⟩
  · intro hid
    rw [h.inside p hin, Labelled, if_pos hid] at hnext
    have hnone : mid = none := hmid.resolve_right (of_decide_eq_false hnext.1)
    refine ⟨hnone, hinv, h.labelled, h.closed, ?_, by simp⟩
    intro p' hp'
    rcases eq_or_ne p' p with rfl | hne
    · simp only [update_self, opened_append, opened, hid, if_true]
      rw [h.inside p' hp', hnone]
    · simp only [update_of_ne hne]
      rw [h.inside p' hp', hnone]
  · intro hid
    refine ⟨hinv, h.labelled, h.closed, ?_, ?_⟩
    · intro p' hp'
      rcases eq_or_ne p' p with rfl | hne
      · simp only [update_self, opened_append, opened, hid]
        cases m.flags.more <;> simp
      · simp only [update_of_ne hne]
        rw [h.inside p' hp', hother p' hne]
        cases m.flags.more <;> simp [Ne.symm hne]
    · intro p' hp'
      exact hp'

/-- Receiving does not fail, and in the middle of a message the next part comes. -/
theorem Stream.recvpipe (h : Stream q mid) :
    ∃ r, q.fq.recvpipe q.sources = some r ∧ Got q mid (q.received r) r.part := by
  obtain hreading | ⟨p, hreading⟩ := eq_none_or_eq_some q.reading
  · have hmid : mid = none := by
      cases mid with
      | none => rfl
      | some p => cases hreading.symm.trans (h.reading p rfl)
    obtain ⟨r, hr, hmem, hinv⟩ := h.inv.recv_between hreading
    refine ⟨r, hr, ?_⟩
    obtain hpart | ⟨⟨p, m⟩, hpart⟩ := eq_none_or_eq_some r.part
    · have heq : q.received r = { q with fq := r.fq, sources := r.sources } := by
        rw [FairQueues.System.received, hpart]
      rw [heq] at hinv ⊢
      refine ⟨rfl, fun _ => ⟨hmid, ⟨hinv, h.labelled, h.closed, ?_, by simp⟩, rfl⟩, ?_⟩
      · intro p hp
        rw [← hmid]
        exact h.inside p hp
      · intro p m hpart'
        cases hpart.symm.trans hpart'
    · exact h.got_part hinv hpart (hmem p m hpart) (.inl hmid)
  · obtain ⟨r, m, hr, hpart, hinv⟩ := h.inv.recv_reading hreading
    refine ⟨r, hr, h.got_part hinv hpart (h.inv.mem_attached hreading) ?_⟩
    cases mid with
    | none => exact .inl rfl
    | some p' =>
      right
      rw [← hreading, h.reading p' rfl]

end Streams

section Streams
variable {q : FairQueues.System Pipe} {mid : Option Pipe} {pipe : Pipe}
variable (h : Stream q mid)
include h

/-- What happens in a pipe outside the queue does not matter. -/
theorem Stream.setSource (hnew : pipe ∉ q.attached) (source : Source) :
    Stream { q with sources := update q.sources pipe source } mid := by
  have hne {p : Pipe} (hp : p ∈ q.attached) : p ≠ pipe := by
    rintro rfl
    exact hnew hp
  refine { h with inv := ⟨⟨h.inv.served.ok, h.inv.served.mem, ?_, ?_, ?_⟩, h.inv.more, ?_⟩ }
  · intro p hp
    have hin := (h.inv.served.mem p).mp (h.inv.served.ok.mem_of_active hp)
    dsimp only
    rw [update_of_ne (hne hin)]
    exact h.inv.served.inActive p hp
  · intro p hp
    dsimp only
    rw [update_of_ne (hne hp)]
    exact h.inv.served.whole p hp
  · intro p hp
    dsimp only
    rw [update_of_ne (hne hp)]
    exact h.inv.served.order p hp
  · intro p hp
    obtain ⟨hpoints, hreadable⟩ := h.inv.reading p hp
    exact ⟨hpoints, by dsimp only; rwa [update_of_ne (hne (h.inv.mem_attached hp))]⟩

theorem Stream.attach (hnew : pipe ∉ q.attached) (hitems : Batch items)
    (hstep : FairQueues.step q (.attach pipe items) = some q') :
    Stream q' mid ∧ q'.attached = pipe :: q.attached ∧ q'.got = update q.got pipe [] := by
  obtain ⟨t, ht, hinv⟩ := h.inv.attach hnew hitems.1
  cases hstep.symm.trans ht
  obtain ⟨fq, -, rfl⟩ := map_eq_some_iff.mp hstep
  have hmid : mid ≠ some pipe := fun hmid => hnew (h.mem hmid)
  refine ⟨⟨hinv, ?_, ?_, ?_, h.reading⟩, rfl, rfl⟩
  · intro p hp
    rcases eq_or_ne p pipe with rfl | heq
    · simpa using hitems.2
    · simpa [heq] using h.labelled p ((mem_cons.mp hp).resolve_left heq)
  · intro p hp
    rcases eq_or_ne p pipe with rfl | heq
    · simpa using hitems.not_open
    · simpa [heq] using h.closed p ((mem_cons.mp hp).resolve_left heq)
  · intro p hp
    rcases eq_or_ne p pipe with rfl | heq
    · simp [opened, hmid]
    · simpa [heq] using h.inside p ((mem_cons.mp hp).resolve_left heq)

theorem Stream.deliver (hitems : Batch items)
    (hstep : FairQueues.step q (.deliver pipe items) = some q') :
    Stream q' mid ∧ q'.attached = q.attached ∧ q'.got = q.got := by
  obtain ⟨t, ht, hinv⟩ : ∃ t, FairQueues.step q (.deliver pipe items) = some t ∧ FairQueues.Inv t :=
    h.inv.deliver hitems.1
  cases hstep.symm.trans ht
  cases hstep
  refine ⟨⟨hinv, ?_, ?_, h.inside, h.reading⟩, rfl, rfl⟩
  · intro p hp
    rcases eq_or_ne p pipe with rfl | heq
    · simp only [update_self, labelled_append]
      rw [h.closed p hp]
      exact ⟨h.labelled p hp, hitems.2⟩
    · simpa [heq] using h.labelled p hp
  · intro p hp
    rcases eq_or_ne p pipe with rfl | heq
    · simp only [update_self, opened_append]
      rw [h.closed p hp]
      exact hitems.not_open
    · simpa [heq] using h.closed p hp

theorem Stream.terminated (hin : pipe ∈ q.attached) (hreadable : (q.sources pipe).readable = false)
    (hsafe : FairQueues.Safe q.fq pipe) (hstep : FairQueues.step q (.terminated pipe) = some q') :
    Stream q' mid ∧ q'.attached = q.attached.filter (fun p => p ≠ pipe) ∧ q'.got = q.got := by
  have hreading : q.reading ≠ some pipe := by
    intro hreading
    cases hreadable.symm.trans (h.inv.reading pipe hreading).2
  obtain ⟨t, ht, hinv⟩ := h.inv.terminated hin hreading hsafe
  cases hstep.symm.trans ht
  obtain ⟨fq, -, rfl⟩ := map_eq_some_iff.mp hstep
  refine ⟨⟨hinv, ?_, ?_, ?_, h.reading⟩, rfl, rfl⟩
  · intro p hp
    exact h.labelled p (mem_of_mem_filter hp)
  · intro p hp
    exact h.closed p (mem_of_mem_filter hp)
  · intro p hp
    exact h.inside p (mem_of_mem_filter hp)

theorem Stream.activateRead (hin : pipe ∈ q.attached)
    (hstep : FairQueues.step q (.activateRead pipe) = some q') :
    Stream q' mid ∧ q'.attached = q.attached ∧ q'.got = q.got := by
  obtain ⟨t, ht, hinv⟩ := h.inv.activateRead hin
  cases hstep.symm.trans ht
  unfold FairQueues.step at hstep
  dsimp only at hstep
  split at hstep
  · obtain ⟨fq, -, rfl⟩ := map_eq_some_iff.mp hstep
    exact ⟨{ h with inv := hinv }, rfl, rfl⟩
  · cases hstep
    exact ⟨h, rfl, rfl⟩

theorem Stream.stopReading (hreading : q.reading ≠ some pipe) :
    Stream { q with
      sources := update q.sources pipe { q.sources pipe with readable := false } } mid := by
  obtain ⟨t, ht, hinv⟩ := h.inv.close hreading
  cases ht
  exact { h with inv := hinv }

end Streams

/-- The state of a router apart from its pipes and its table. -/
structure Talk (Pipe : Type) where
  prefetched : Bool
  prefetchedId : Msg
  prefetchedMsg : Msg
  routingIdSent : Bool
  currentIn : Option Pipe
  terminateCurrentIn : Bool
  moreIn : Bool
  moreOut : Bool
  mandatory : Bool
  rawSocket : Bool
  rawOption : Bool
  probeRouter : Bool
  handover : Bool
  connectRoutingId : Routers.Blob

def talk (r : Router Pipe) : Talk Pipe where
  prefetched := r.prefetched
  prefetchedId := r.prefetchedId
  prefetchedMsg := r.prefetchedMsg
  routingIdSent := r.routingIdSent
  currentIn := r.currentIn
  terminateCurrentIn := r.terminateCurrentIn
  moreIn := r.moreIn
  moreOut := r.moreOut
  mandatory := r.mandatory
  rawSocket := r.rawSocket
  rawOption := r.rawOption
  probeRouter := r.probeRouter
  handover := r.handover
  connectRoutingId := r.connectRoutingId

/-- The options of routers are not used. -/
structure Talk.Plain (t : Talk Pipe) : Prop where
  terminateCurrentIn : t.terminateCurrentIn = false
  mandatory : t.mandatory = false
  rawSocket : t.rawSocket = false
  rawOption : t.rawOption = false
  probeRouter : t.probeRouter = false
  handover : t.handover = false
  connectRoutingId : t.connectRoutingId = []

omit [DecidableEq Pipe] in
/-- The options do not depend on the message in progress. -/
theorem Talk.Plain.anew {t : Talk Pipe} (h : t.Plain)
    {prefetched routingIdSent moreIn moreOut : Bool} {prefetchedId prefetchedMsg : Msg}
    {currentIn : Option Pipe} :
    { t with
      prefetched := prefetched, prefetchedId := prefetchedId, prefetchedMsg := prefetchedMsg
      routingIdSent := routingIdSent, currentIn := currentIn, moreIn := moreIn
      moreOut := moreOut }.Plain :=
  { h with }

/-- What is in a pipe stays there as long as it can be written to. -/
structure Kept (s s' : Sink) : Prop where
  flushed : s'.queue.flushed = s.queue.flushed
  finished : s'.queue.finished = s.queue.finished
  alive : s'.alive = true → s.alive = true
  unfinished : s'.alive = true → s'.queue.unfinished = s.queue.unfinished

theorem Kept.refl (s : Sink) : Kept s s := ⟨rfl, rfl, id, fun _ => rfl⟩

/-- What happens to a router between the calls of the user. -/
structure Env (r r' : Router Pipe) (new : Pipe → Prop) : Prop where
  same : talk r' = talk r
  out : r'.currentOut = r.currentOut ∨
    ∃ p, r.currentOut = some p ∧ r'.currentOut = none ∧ (r'.sinks p).alive = false
  kept : ∀ q, ¬ new q → Kept (r.sinks q) (r'.sinks q)
  empty : ∀ q, new q → (r'.sinks q).queue = {}
  ids : ∀ p ∈ r.queues.attached, r'.routingId p = r.routingId p
  got : r'.queues.got = r.queues.got

/-- The pipes of a router that is in the middle of a message or between messages. -/
structure Link (r : Router Pipe) (mid : Option Pipe) (known : List Pipe) : Prop where
  plain : (talk r).Plain
  table : Table r
  stream : Stream r.queues mid
  waiting : ∀ p ∈ r.anonymousPipes, Batch (r.queues.sources p).queue
  seen : ∀ p, r.Has p → p ∈ known
  fresh : ∀ p, p ∉ known ∨ p ∈ r.anonymousPipes → r.queues.got p = []

section Environment
variable {r r' : Router Pipe} {mid : Option Pipe} {known : List Pipe} {pipe : Pipe}

section
variable (h : Link r mid known)
include h

theorem Link.setSink {sink : Sink} (hkept : Kept (r.sinks pipe) sink) :
    Link (r.setSink pipe sink) mid known ∧ Env r (r.setSink pipe sink) fun _ => False := by
  refine ⟨{ h with table := (Routers.frame_setSink r pipe sink).table h.table }, rfl, .inl rfl, ?_,
    nofun, fun _ _ => rfl, rfl⟩
  intro q _
  rcases eq_or_ne q pipe with rfl | hq
  · simpa [Router.setSink] using hkept
  · simpa [Router.setSink, hq] using Kept.refl (r.sinks q)

theorem Link.setRoom (room : Bool) :
    Link (r.setRoom pipe room) mid known ∧ Env r (r.setRoom pipe room) fun _ => False :=
  h.setSink ⟨rfl, rfl, id, fun _ => rfl⟩

theorem Link.setSource (htable : Table (r.setSource pipe source))
    (hstream : Stream (r.setSource pipe source).queues mid)
    (hbatch : pipe ∈ r.anonymousPipes → Batch source.queue) :
    Link (r.setSource pipe source) mid known := by
  refine ⟨h.plain, htable, hstream, ?_, h.seen, h.fresh⟩
  intro p hp
  rcases eq_or_ne p pipe with rfl | heq
  · simpa [Router.setSource] using hbatch hp
  · simpa [Router.setSource, heq] using h.waiting p hp

theorem Link.stopReading (hreading : r.queues.reading ≠ some pipe) :
    Link (r.stopReading pipe) mid known :=
  h.setSource ((Routers.frame_stopReading r pipe).table h.table) (h.stream.stopReading hreading)
    (h.waiting pipe)

theorem Link.close {reads takenBack : Bool}
    (hreading : reads = true ∨ r.queues.reading ≠ some pipe) :
    Link (r.close pipe reads takenBack) mid known ∧
      Env r (r.close pipe reads takenBack) fun _ => False := by
  have hsink {r : Router Pipe} (h : Link r mid known) :
      Link (r.setSink pipe { (if takenBack then (r.sinks pipe).rollback else r.sinks pipe) with
        alive := false }) mid known ∧
      Env r (r.setSink pipe { (if takenBack then (r.sinks pipe).rollback else r.sinks pipe) with
        alive := false }) fun _ => False := by
    refine h.setSink ⟨?_, ?_, nofun, nofun⟩
    · cases takenBack <;> rfl
    · cases takenBack <;> rfl
  cases reads with
  | true => exact hsink h
  | false =>
    obtain ⟨hlink, henv⟩ := hsink (h.stopReading (hreading.resolve_left nofun))
    exact ⟨hlink, { henv with }⟩

theorem Link.deliver (hitems : Batch items) (hdeliver : r.deliver pipe items = some r') :
    Link r' mid known ∧ Env r r' fun _ => False := by
  have hframe := Routers.frame_deliver hdeliver
  obtain ⟨queues, hqueues, rfl⟩ := map_eq_some_iff.mp hdeliver
  obtain ⟨hstream, hattached, hgot⟩ := h.stream.deliver hitems hqueues
  refine ⟨⟨h.plain, hframe.table h.table, hstream, ?_, fun p hp => h.seen p ((hframe.has p).mp hp),
    ?_⟩, rfl, .inl rfl, fun q _ => .refl _, nofun, fun _ _ => rfl, hgot⟩
  · intro p hp
    have hbatch := h.waiting p hp
    cases hqueues
    rcases eq_or_ne p pipe with rfl | heq
    · simpa using hbatch.append hitems
    · simpa [heq] using hbatch
  · intro p hp
    exact (congrFun hgot p).trans (h.fresh p hp)

theorem Link.activateWrite (hactivate : r.activateWrite pipe = some r') :
    Link r' mid known ∧ Env r r' fun _ => False := by
  have hframe := Routers.frame_activateWrite hactivate
  unfold Router.activateWrite at hactivate
  dsimp only at hactivate
  split at hactivate
  · split at hactivate
    · cases hactivate
    split at hactivate
    · cases hactivate
    cases hactivate
    have hkept : Kept (r.sinks pipe) { r.sinks pipe with outActive := true } :=
      ⟨rfl, rfl, id, fun _ => rfl⟩
    obtain ⟨-, henv⟩ := h.setSink hkept
    exact ⟨{ h with table := hframe.table h.table, seen := fun p hp => h.seen p ((hframe.has p).mp
      hp) }, rfl, .inl rfl, henv.kept, by simp,
      fun _ _ => rfl, rfl⟩
  · cases hactivate
    exact ⟨h, rfl, .inl rfl, fun q _ => .refl _, by simp, fun _ _ => rfl, rfl⟩

theorem Link.xpipeTerminated (hin : r.Has pipe) (halive : (r.sinks pipe).alive = false)
    (hreadable : (r.queues.sources pipe).readable = false)
    (hsafe : FairQueues.Safe r.queues.fq pipe) (hterminated : r.xpipeTerminated pipe = some r') :
    Link r' mid known ∧ Env r r' fun _ => False := by
  obtain ⟨r'', hr'', htable, hmem, -⟩ := h.table.xpipeTerminated hin
  cases hterminated.symm.trans hr''
  have hknown (p : Pipe) (hp : r'.Has p) : p ∈ known := h.seen p ((hmem p).mp hp).1
  unfold Router.xpipeTerminated at hterminated
  split at hterminated
  · cases hterminated
    refine ⟨⟨h.plain, htable, h.stream, ?_, hknown, ?_⟩, rfl, .inl rfl, fun q _ => .refl _, nofun,
      fun _ _ => rfl, rfl⟩
    · intro p hp
      exact h.waiting p (mem_of_mem_erase hp)
    · intro p hp
      exact h.fresh p (hp.imp_right mem_of_mem_erase)
  · rename_i hanonymous
    split at hterminated
    · obtain ⟨queues, hqueues, rfl⟩ := map_eq_some_iff.mp hterminated
      obtain ⟨hstream, -, hgot⟩ :=
        h.stream.terminated (hin.resolve_left hanonymous) hreadable hsafe hqueues
      have hsources : queues.sources = r.queues.sources := by
        obtain ⟨fq, -, rfl⟩ := map_eq_some_iff.mp hqueues
        rfl
      have hkept (q : Pipe) : Kept (r.sinks q) (update r.sinks pipe (r.sinks pipe).rollback q) := by
        rcases eq_or_ne q pipe with rfl | hq
        · rw [update_self]
          refine ⟨rfl, rfl, id, fun hagain => ?_⟩
          cases halive.symm.trans hagain
        · rw [update_of_ne hq]
          exact .refl _
      refine ⟨⟨h.plain, htable, hstream, ?_, hknown, ?_⟩, rfl, ?_, fun q _ => hkept q, nofun,
        fun _ _ => rfl, hgot⟩
      · intro p hp
        rw [hsources]
        exact h.waiting p hp
      · intro p hp
        exact (congrFun hgot p).trans (h.fresh p hp)
      · by_cases hout : r.currentOut = some pipe
        · right
          refine ⟨pipe, hout, if_pos hout, ?_⟩
          dsimp only
          rw [update_self]
          exact halive
        · exact .inl (if_neg hout)
    · cases hterminated

end

/-- A pipe that is identified, or not. -/
structure Looked (r : Router Pipe) (pipe : Pipe) (r' : Router Pipe) (source : Source) : Prop where
  same : talk r' = talk r
  queues : r'.queues = (r.setSource pipe source).queues
  sinks : r'.sinks = r.sinks
  out : r'.currentOut = r.currentOut
  anonymous : r'.anonymousPipes = r.anonymousPipes
  ids : ∀ q, q ≠ pipe → r'.routingId q = r.routingId q
  batch : Batch source.queue

theorem looked_adopt {id : Routers.Blob} (hbatch : Batch source.queue)
    (h : (r.setSource pipe source).adopt pipe id = some r') : Looked r pipe r' source := by
  unfold Router.adopt Router.emplace at h
  split at h
  · cases h
  · cases h
    exact ⟨rfl, rfl, rfl, rfl, rfl, fun q hq => update_of_ne hq _ _, hbatch⟩

/-- `identify_peer` without the options of routers. -/
theorem looked_identifyPeer {ok : Bool} (hplain : (talk r).Plain)
    (hbatch : Batch (r.queues.sources pipe).queue)
    (h : r.identifyPeer pipe = some (r', ok)) : ∃ source, Looked r pipe r' source := by
  unfold Router.identifyPeer at h
  rw [if_neg fun hne => hne hplain.connectRoutingId] at h
  split at h
  · rename_i hraw
    cases hplain.rawOption.symm.trans hraw
  split at h
  · rename_i source hread
    cases h
    exact ⟨source, rfl, rfl, rfl, rfl, rfl, fun _ _ => rfl,
      hbatch.drained (FairQueues.drained_read hread)⟩
  · rename_i m source hread
    have hrest := hbatch.read hread
    refine ⟨source, ?_⟩
    unfold Router.identifyBy at h
    split at h
    · obtain ⟨r₁, hr₁, heq⟩ := map_eq_some_iff.mp h
      cases heq
      have hlooked := looked_adopt (r := r.draw) hrest hr₁
      exact { hlooked with batch := hrest }
    · split at h
      · obtain ⟨r₁, hr₁, heq⟩ := map_eq_some_iff.mp h
        cases heq
        exact looked_adopt hrest hr₁
      split at h
      · cases h
        exact ⟨rfl, rfl, rfl, rfl, rfl, fun _ _ => rfl, hrest⟩
      · rename_i hhandover
        have hoff : (r.setSource pipe source).handover = false := hplain.handover
        exact absurd (by rw [hoff]; rfl) hhandover

/-- The pipe enters the fair queue, or stays anonymous. -/
theorem Link.identified {r'' : Router Pipe} {anonymous known' : List Pipe} (h : Link r mid known)
    (hlooked : Looked r pipe r' source) (hnew : pipe ∉ r.queues.attached)
    (hgot : r.queues.got pipe = [])
    (hanonymous : ∀ p ∈ anonymous, p ∈ r.anonymousPipes ∨ p = pipe)
    (hresult : pipe ∉ anonymous ∧
        { r' with anonymousPipes := anonymous }.enqueue pipe = some r'' ∨
      { r' with anonymousPipes := anonymous } = r'')
    (htable : Table r'') (hseen : ∀ p, r''.Has p → p ∈ known') (hknown : known ⊆ known') :
    Link r'' mid known' ∧ Env r r'' (fun _ => False) ∧ r''.sinks = r.sinks := by
  have hstream : Stream r'.queues mid := by
    rw [hlooked.queues]
    exact h.stream.setSource hnew source
  have hattached : r'.queues.attached = r.queues.attached := by
    rw [hlooked.queues]
    rfl
  have hsame : r'.queues.got = r.queues.got := by
    rw [hlooked.queues]
    rfl
  have hbatch (p : Pipe) (hp : p ∈ r.anonymousPipes ∨ p = pipe) :
      Batch (r'.queues.sources p).queue := by
    rw [hlooked.queues]
    rcases eq_or_ne p pipe with rfl | heq
    · simpa [Router.setSource] using hlooked.batch
    · simpa [Router.setSource, heq] using h.waiting p (hp.resolve_right heq)
  obtain ⟨queues, rfl, hstream, hsame, hwaiting⟩ : ∃ queues,
      r'' = { r' with queues := queues, anonymousPipes := anonymous } ∧ Stream queues mid ∧
        queues.got = r.queues.got ∧ ∀ p ∈ anonymous, Batch (queues.sources p).queue := by
    rcases hresult with ⟨hout, henqueue⟩ | rfl
    · obtain ⟨queues, hqueues, rfl⟩ := map_eq_some_iff.mp henqueue
      obtain ⟨hstream', -, hgot'⟩ :=
        hstream.attach (by rwa [hattached]) (hbatch pipe (.inr rfl)) hqueues
      refine ⟨queues, rfl, hstream', by rw [hgot', hsame, ← hgot, update_eq_self], ?_⟩
      intro p hp
      obtain ⟨fq, -, rfl⟩ := map_eq_some_iff.mp hqueues
      dsimp only
      rw [update_of_ne (by rintro rfl; exact hout hp)]
      exact hbatch p (hanonymous p hp)
    · exact ⟨r'.queues, rfl, hstream, hsame, fun p hp => hbatch p (hanonymous p hp)⟩
  refine ⟨⟨?_, htable, hstream, hwaiting, hseen, ?_⟩,
    ⟨hlooked.same, .inl hlooked.out, fun q _ => ?_, by simp, ?_, hsame⟩, hlooked.sinks⟩
  · change (talk r').Plain
    rw [hlooked.same]
    exact h.plain
  · intro p hp
    dsimp only
    rw [hsame]
    rcases hp with hp | hp
    · exact h.fresh p (.inl fun hin => hp (hknown hin))
    · rcases hanonymous p hp with hold | rfl
      · exact h.fresh p (.inr hold)
      · exact hgot
  · dsimp only
    rw [hlooked.sinks]
    exact .refl _
  · intro p hp
    refine hlooked.ids p ?_
    rintro rfl
    exact hnew hp

theorem Link.activateRead (h : Link r mid known) (hin : r.Has pipe)
    (hactivate : r.activateRead pipe = some r') : Link r' mid known ∧ Env r r' fun _ => False := by
  obtain ⟨htable, hmem, -⟩ := h.table.activateRead hactivate hin
  have hseen (p : Pipe) (hp : r'.Has p) : p ∈ known := h.seen p ((hmem p).mp hp)
  unfold Router.activateRead at hactivate
  dsimp only at hactivate
  split at hactivate
  · rename_i hpassive
    split at hactivate
    · rename_i hanonymous
      have hnew := h.table.apart pipe hanonymous
      have hgot := h.fresh pipe (.inr hanonymous)
      let r₀ := r.setSource pipe { r.queues.sources pipe with inActive := true }
      have hbatch : Batch (r₀.queues.sources pipe).queue := by
        simpa [r₀, Router.setSource] using h.waiting pipe hanonymous
      have hlink : Link r₀ mid known :=
        h.setSource ((Routers.frame_setSource_new hnew _).table h.table)
          (h.stream.setSource hnew _) (h.waiting pipe)
      split at hactivate
      · cases hactivate
      · rename_i r₁ hidentify
        obtain ⟨source, hlooked⟩ := looked_identifyPeer hlink.plain hbatch hidentify
        rw [hlooked.anonymous] at hactivate
        obtain ⟨hlink', henv, -⟩ := hlink.identified hlooked hnew hgot
          (fun p hp => .inl (mem_of_mem_erase hp))
          (.inl ⟨h.table.nodup.not_mem_erase, hactivate⟩) htable hseen (List.Subset.refl _)
        exact ⟨hlink', { henv with }⟩
      · rename_i r₁ hidentify
        cases hactivate
        obtain ⟨source, hlooked⟩ := looked_identifyPeer hlink.plain hbatch hidentify
        obtain ⟨hlink', henv, -⟩ := hlink.identified hlooked hnew hgot
          (fun p hp => .inl (hlooked.anonymous ▸ hp)) (.inr rfl) htable hseen (List.Subset.refl _)
        exact ⟨hlink', { henv with }⟩
    · rename_i hanonymous
      obtain ⟨queues, hqueues, rfl⟩ := map_eq_some_iff.mp hactivate
      have hattached := hin.resolve_left hanonymous
      obtain ⟨hstream, -, hgot⟩ := h.stream.activateRead hattached hqueues
      refine ⟨⟨h.plain, htable, hstream, ?_, hseen, ?_⟩, rfl, .inl rfl, fun q _ => .refl _,
        by simp, fun _ _ => rfl, hgot⟩
      · intro p hp
        have hne : p ≠ pipe := by
          rintro rfl
          exact hanonymous hp
        have hsource : queues.sources p = r.queues.sources p := by
          rw [FairQueues.step, if_pos hpassive] at hqueues
          obtain ⟨fq, -, rfl⟩ := map_eq_some_iff.mp hqueues
          simp [hne]
        rw [hsource]
        exact h.waiting p hp
      · intro p hp
        exact (congrFun hgot p).trans (h.fresh p hp)
  · cases hactivate
    exact ⟨h, rfl, .inl rfl, fun q _ => .refl _, by simp, fun _ _ => rfl, rfl⟩

theorem Link.connect (h : Link r mid known) (hnew : pipe ∉ known) (hitems : Batch items)
    (hconnect : r.connect pipe items = some r') :
    Link r' mid (pipe :: known) ∧ Env r r' (· = pipe) := by
  have hhas : ¬ r.Has pipe := fun hin => hnew (h.seen pipe hin)
  have hout : pipe ∉ r.queues.attached := fun hin => hhas (.inr hin)
  let r₀ := (r.setSource pipe { queue := items }).setSink pipe {}
  have hframe : Frame r r₀ := Routers.frame_new hout _ _
  have hlink : Link r₀ mid known :=
    { h.setSource ((Routers.frame_setSource_new hout _).table h.table) (h.stream.setSource hout _)
        fun _ => hitems with table := hframe.table h.table }
  have hbatch : Batch (r₀.queues.sources pipe).queue := by
    simpa [r₀, Router.setSource, Router.setSink] using hitems
  have hprobe : r₀.probe pipe = r₀ := by
    unfold Router.probe
    rw [show r₀.probeRouter = false from hlink.plain.probeRouter]
    simp
  have henv {r'' : Router Pipe} (henv : Env r₀ r'' fun _ => False) (hsinks : r''.sinks = r₀.sinks) :
      Env r r'' (· = pipe) := by
    refine { henv with kept := ?_, empty := ?_ }
    · intro q hq
      rw [hsinks]
      simpa [r₀, Router.setSink, Router.setSource, hq] using Kept.refl (r.sinks q)
    · rintro q rfl
      rw [hsinks]
      simp [r₀, Router.setSink]
  have hfresh : r₀.queues.got pipe = [] := hlink.fresh pipe (.inl hnew)
  obtain ⟨htable, hmem, -⟩ := hlink.table.xattachPipe (by rwa [hframe.has]) hconnect
  have hseen (p : Pipe) (hp : r'.Has p) : p ∈ pipe :: known := by
    rcases (hmem p).mp hp with hold | rfl
    · exact mem_cons_of_mem _ (hlink.seen p hold)
    · exact mem_cons_self
  change r₀.xattachPipe pipe = some r' at hconnect
  unfold Router.xattachPipe at hconnect
  rw [hprobe] at hconnect
  split at hconnect
  · cases hconnect
  · rename_i r₁ hidentify
    obtain ⟨source, hlooked⟩ := looked_identifyPeer hlink.plain hbatch hidentify
    have hout' : pipe ∉ r₁.anonymousPipes := by
      rw [hlooked.anonymous]
      exact fun hin => hhas (.inl hin)
    obtain ⟨hlink', henv', hsinks⟩ := hlink.identified hlooked hout hfresh
      (fun p hp => .inl (hlooked.anonymous ▸ hp)) (.inl ⟨hout', hconnect⟩) htable hseen
      (subset_cons_self _ _)
    exact ⟨hlink', henv henv' hsinks⟩
  · rename_i r₁ hidentify
    cases hconnect
    obtain ⟨source, hlooked⟩ := looked_identifyPeer hlink.plain hbatch hidentify
    have hin (p : Pipe) (hp : p ∈ pipe :: r₁.anonymousPipes) :
        p ∈ r₀.anonymousPipes ∨ p = pipe := by
      rw [hlooked.anonymous] at hp
      exact (mem_cons.mp hp).symm
    obtain ⟨hlink', henv', hsinks⟩ := hlink.identified hlooked hout hfresh hin (.inr rfl) htable
      hseen (subset_cons_self _ _)
    exact ⟨hlink', henv henv' hsinks⟩

end Environment

section Receipt
variable {r : Router Pipe} {mid : Option Pipe} {known : List Pipe}

theorem Link.recvpipe (h : Link r mid known) :
    ∃ q part, r.recvpipe = some ({ r with queues := q }, part) ∧ Got r.queues mid q part ∧
      ∀ mid', Stream q mid' → Link { r with queues := q } mid' known := by
  obtain ⟨received, hreceived, hgot⟩ := h.stream.recvpipe
  have hrecv : r.recvpipe =
      some ({ r with queues := r.queues.received received }, received.part) := by
    rw [Router.recvpipe, hreceived]
    rfl
  have hframe := Routers.frame_recvpipe hrecv
  refine ⟨_, _, hrecv, hgot, ?_⟩
  intro mid' hstream
  refine ⟨h.plain, hframe.table h.table, hstream, ?_, fun p hp => h.seen p ((hframe.has p).mp hp),
    ?_⟩
  · intro p hp
    have hout := h.table.apart p hp
    have hsame := (h.table.fair.recvpipe hreceived).2.2 p hout
    have hsources : (r.queues.received received).sources = received.sources := by
      unfold FairQueues.System.received
      split <;> rfl
    rw [hsources, hsame]
    exact h.waiting p hp
  · intro p hp
    have hold := h.fresh p hp
    obtain hnone | ⟨⟨p', m⟩, hpart⟩ := eq_none_or_eq_some received.part
    · exact (congrFun (hgot.empty hnone).2.2 p).trans hold
    obtain ⟨hin, -, hupdate, -⟩ := hgot.part p' m hpart
    have hne : p ≠ p' := by
      rintro rfl
      rcases hp with hp | hp
      · exact hp (h.seen p (.inr hin))
      · exact h.table.apart p hp hin
    rw [hupdate, update_of_ne hne]
    exact hold

theorem Link.of_frame (h : Link r mid known) {r' : Router Pipe} (hplain : (talk r').Plain)
    (hframe : Frame r r') (hqueues : r'.queues = r.queues) : Link r' mid known := by
  refine ⟨hplain, hframe.table h.table, ?_, ?_, fun p hp => h.seen p ((hframe.has p).mp hp), ?_⟩
  · rw [hqueues]
    exact h.stream
  · rw [hqueues, hframe.anonymous]
    exact h.waiting
  · rw [hqueues, hframe.anonymous]
    exact h.fresh

/-- Nothing of a message was read. -/
structure Silent (r r' : Router Pipe) (known : List Pipe) : Prop where
  link : Link r' none known
  same : talk r' = talk r
  sinks : r'.sinks = r.sinks
  out : r'.currentOut = r.currentOut
  got : ∀ p, content (r'.queues.got p) = content (r.queues.got p)

/-- The next part of a message was read. -/
structure Read (q q' : FairQueues.System Pipe) (p : Pipe) (m : Msg) : Prop where
  mem : p ∈ q.attached
  part : m.flags.routingId = false
  got : ∀ p', content (q'.got p') = content (q.got p') ++ if p' = p then [m] else []

theorem Link.recv_cases (h : Link r mid known) :
    ∃ q part, r.recvpipe = some ({ r with queues := q }, part) ∧
      (mid = none ∧ Silent r { r with queues := q } known ∧
          (part = none ∨ ∃ p m, part = some (p, m) ∧ m.flags.routingId = true) ∨
        ∃ p m, part = some (p, m) ∧ (mid = none ∨ mid = some p) ∧ Read r.queues q p m ∧
          Link { r with queues := q } (if m.flags.more then some p else none) known) := by
  obtain ⟨q, part, hrecv, hgot, hlink⟩ := h.recvpipe
  refine ⟨q, part, hrecv, ?_⟩
  obtain hnone | ⟨⟨p, m⟩, hpart⟩ := eq_none_or_eq_some part
  · obtain ⟨hmid, hstream, hsame⟩ := hgot.empty hnone
    refine .inl ⟨hmid, ⟨hlink _ hstream, rfl, rfl, rfl, ?_⟩, .inl hnone⟩
    intro p
    exact congrArg content (congrFun hsame p)
  · obtain ⟨hin, hmid, hupdate, hid, hmsg⟩ := hgot.part p m hpart
    have hcontent (p' : Pipe) : content (q.got p') =
        content (r.queues.got p') ++ if p' = p then content [m] else [] := by
      rw [hupdate]
      rcases eq_or_ne p' p with rfl | hp
      · simp [content]
      · simp [hp]
    cases hrouting : m.flags.routingId with
    | true =>
      obtain ⟨hnone, hstream⟩ := hid hrouting
      refine .inl ⟨hnone, ⟨hlink _ hstream, rfl, rfl, rfl, ?_⟩, .inr ⟨p, m, hpart, hrouting⟩⟩
      intro p'
      refine (hcontent p').trans ?_
      simp [content, hrouting]
    | false =>
      refine .inr ⟨p, m, hpart, hmid, ⟨hin, hrouting, ?_⟩, hlink _ (hmsg hrouting)⟩
      intro p'
      refine (hcontent p').trans ?_
      simp [content, hrouting]

/-- The router after it has returned a part. -/
def after (r : Router Pipe) (m : Msg) : Router Pipe :=
  if m.flags.more then { r with moreIn := true } else { r with moreIn := false, currentIn := none }

theorem returned_eq (hplain : (talk r).Plain) (m : Msg) :
    r.returned m = some (after r m, .part m) := by
  have hterminate : ¬ r.terminateCurrentIn = true := Bool.eq_false_iff.mp hplain.terminateCurrentIn
  unfold Router.returned Router.finish after
  split <;> rfl

section After
variable (r : Router Pipe) (m : Msg)

section
omit [DecidableEq Pipe]

theorem after_eq :
    after r m = { r with moreIn := m.flags.more, currentIn := (after r m).currentIn } := by
  unfold after
  cases m.flags.more <;> rfl

theorem after_queues : (after r m).queues = r.queues := by rw [after_eq]

theorem after_sinks : (after r m).sinks = r.sinks := by rw [after_eq]

theorem after_currentOut : (after r m).currentOut = r.currentOut := by rw [after_eq]

theorem after_moreOut : (after r m).moreOut = r.moreOut := by rw [after_eq]

theorem after_prefetched : (after r m).prefetched = r.prefetched := by rw [after_eq]

theorem after_moreIn : (after r m).moreIn = m.flags.more := by rw [after_eq]

end

theorem Link.after (h : Link r mid known) : Link (Reps.after r m) mid known := by
  have hplain := h.plain
  rw [after_eq]
  exact h.of_frame hplain.anew (.of_eq rfl) rfl

end After

end Receipt

section Sending
variable {r : Router Pipe} {m : Msg}

/-- The routing id of a message was pushed. -/
structure Addressed (r : Router Pipe) (id : Routers.Blob) (r' : Router Pipe) : Prop where
  same : talk r' = { talk r with moreOut := true }
  queues : r'.queues = r.queues
  frame : Frame r r'
  queue : ∀ q, (r'.sinks q).queue = (r.sinks q).queue
  alive : ∀ q, (r'.sinks q).alive = (r.sinks q).alive
  out : (∃ p, r.target id = some p ∧ r'.currentOut = some p) ∨
    r'.currentOut = none ∧ ∀ p, r.target id = some p → ¬ (r'.sinks p).Writable

/-- A pipe that refuses a message cannot be written to afterwards. -/
theorem checkWrite_cases (s : Sink) :
    s.Writable ∧ s.checkWrite = (true, s) ∨
      ¬ s.Writable ∧ ∃ s', s.checkWrite = (false, s') ∧ s'.queue = s.queue ∧ s'.alive = s.alive ∧
        ¬ s'.Writable := by
  unfold Sink.checkWrite Sink.Writable
  cases hout : s.outActive with
  | false => exact .inr ⟨nofun, s, by simp, rfl, rfl, by simp [hout]⟩
  | true =>
    cases halive : s.alive with
    | false => exact .inr ⟨by simp, s, by simp, rfl, halive, by simp [halive]⟩
    | true =>
      cases hroom : s.room with
      | false =>
        exact .inr ⟨by simp, { s with outActive := false }, by simp [halive, hroom], rfl, halive,
          by simp⟩
      | true => exact .inl ⟨by simp, by simp⟩

theorem xsend_first (hplain : (talk r).Plain) (hmore : r.moreOut = false)
    (hout : r.currentOut = none) (hm : m.flags.more = true) :
    ∃ r', r.xsend m = some (r', .ok) ∧ Addressed r m.data r' := by
  have hmandatory : ¬ r.mandatory = true := Bool.eq_false_iff.mp hplain.mandatory
  have hsend : r.xsend m = some (r.address m) := by
    simp [Router.xsend, hmore, hout, hm]
  rw [hsend]
  have hframe := Routers.frame_address r m
  unfold Router.address at hframe ⊢
  cases hlookup : r.outpipes.lookup m.data with
  | none =>
    have htarget : r.target m.data = none := by
      rw [Router.target, hlookup]
      rfl
    simp only [hlookup, if_neg hmandatory] at hframe ⊢
    refine ⟨_, rfl, rfl, rfl, hframe, fun _ => rfl, fun _ => rfl, .inr ⟨hout, ?_⟩⟩
    intro p hp
    cases htarget.symm.trans hp
  | some outpipe =>
    have htarget : r.target m.data = some outpipe.pipe := by
      rw [Router.target, hlookup]
      rfl
    rcases checkWrite_cases (r.sinks outpipe.pipe) with ⟨-, hcheck⟩ | ⟨-, sink, hcheck, hqueue,
      halive, hnot⟩
    · have hsame : r.setSink outpipe.pipe (r.sinks outpipe.pipe) = r := by
        simp [Router.setSink]
      simp only [hlookup, hcheck, hsame] at hframe ⊢
      exact ⟨_, rfl, rfl, rfl, hframe, fun _ => rfl, fun _ => rfl, .inl ⟨_, htarget, rfl⟩⟩
    · have hoff : ¬ (r.setSink outpipe.pipe sink).mandatory = true := hmandatory
      simp only [hlookup, hcheck, if_neg hoff] at hframe ⊢
      refine ⟨_, rfl, rfl, rfl, hframe, ?_, ?_, .inr ⟨hout, ?_⟩⟩
      · intro q
        rcases eq_or_ne q outpipe.pipe with rfl | hq
        · simpa [Router.setSink] using hqueue
        · simp [Router.setSink, hq]
      · intro q
        rcases eq_or_ne q outpipe.pipe with rfl | hq
        · simpa [Router.setSink] using halive
        · simp [Router.setSink, hq]
      · intro p hp
        cases htarget.symm.trans hp
        simpa [Router.setSink] using hnot

/-- A part went to the current pipe, or nowhere. -/
inductive Wrote (r : Router Pipe) (p : Pipe) (m : Msg) (r' : Router Pipe) : Prop where
  | more (writable : (r.sinks p).Writable) (more : m.flags.more = true)
      (out : r'.currentOut = some p)
      (queue : (r'.sinks p).queue = (r.sinks p).queue.write m true)
  | last (writable : (r.sinks p).Writable) (more : m.flags.more = false)
      (out : r'.currentOut = none)
      (queue : (r'.sinks p).queue = ((r.sinks p).queue.write m false).flush)
  | refused (not : ¬ (r.sinks p).Writable) (after : ¬ (r'.sinks p).Writable)
      (out : r'.currentOut = none)
      (queue : (r'.sinks p).queue = { (r.sinks p).queue with unfinished := [] })

/-- A part of a message after the routing id. -/
structure Pushed (r : Router Pipe) (m : Msg) (r' : Router Pipe) : Prop where
  same : talk r' = { talk r with moreOut := m.flags.more }
  queues : r'.queues = r.queues
  frame : Frame r r'
  alive : ∀ q, (r'.sinks q).alive = (r.sinks q).alive
  others : ∀ q, r.currentOut ≠ some q → r'.sinks q = r.sinks q
  none : r.currentOut = none → r'.currentOut = none
  own : ∀ p, r.currentOut = some p → Wrote r p m r'

theorem write_cases (s : Sink) (m : Msg) :
    s.Writable ∧ (∃ s', s.write m = (true, s') ∧ s'.queue = s.queue.write m m.flags.more ∧
        s'.alive = s.alive) ∨
      ¬ s.Writable ∧ ∃ s', s.write m = (false, s') ∧ s'.queue = s.queue ∧ s'.alive = s.alive ∧
        ¬ s'.Writable := by
  rcases checkWrite_cases s with ⟨hwritable, hcheck⟩ | ⟨hnot, s', hcheck, hrest⟩
  · refine .inl ⟨hwritable, ?_⟩
    unfold Sink.write
    simp only [hcheck]
    exact ⟨_, rfl, rfl, rfl⟩
  · refine .inr ⟨hnot, s', ?_, hrest⟩
    unfold Sink.write
    simp only [hcheck]

theorem xsend_next (hplain : (talk r).Plain) (hmore : r.moreOut = true) :
    ∃ r', r.xsend m = some (r', .ok) ∧ Pushed r m r' := by
  have hoption : ¬ r.rawOption = true := Bool.eq_false_iff.mp hplain.rawOption
  have hsocket : ¬ (r.rawSocket && m.data.isEmpty) = true := by
    rw [show r.rawSocket = false from hplain.rawSocket]
    rintro ⟨⟩
  have hsend {out : Option Pipe} (hout : r.currentOut = out) : r.xsend m = some
      (out.elim { r with moreOut := m.flags.more } ({ r with moreOut := m.flags.more }.push · m),
        .ok) := by
    unfold Router.xsend
    simp only [hmore, Bool.not_true, Bool.false_eq_true, if_false, if_neg hoption, hout]
    cases out with
    | none | some => rfl
  cases hout : r.currentOut with
  | none =>
    have hsend : r.xsend m = some ({ r with moreOut := m.flags.more }, .ok) := hsend hout
    refine ⟨_, hsend, rfl, rfl, Routers.frame_xsend hsend, fun _ => rfl, fun _ _ => rfl,
      fun _ => hout, ?_⟩
    intro p hp
    cases hout.symm.trans hp
  | some p =>
    have hsend : r.xsend m = some ({ r with moreOut := m.flags.more }.push p m, .ok) := hsend hout
    have hothers (sink : Sink) (q : Pipe) (hq : r.currentOut ≠ some q) :
        (r.setSink p sink).sinks q = r.sinks q := by
      refine update_of_ne ?_ _ _
      rintro rfl
      exact hq hout
    have hown (sink : Sink) : (r.setSink p sink).sinks p = sink := update_self ..
    have halive {sink : Sink} (h : sink.alive = (r.sinks p).alive) (q : Pipe) :
        ((r.setSink p sink).sinks q).alive = (r.sinks q).alive := by
      rcases eq_or_ne q p with rfl | hq
      · rw [hown, h]
      · exact congrArg Sink.alive (update_of_ne hq _ _)
    refine ⟨_, hsend, ?_⟩
    have hframe := Routers.frame_xsend hsend
    unfold Router.push at hframe ⊢
    simp only [if_neg hsocket] at hframe ⊢
    rcases write_cases (r.sinks p) m with ⟨hwritable, sink, hwrite, hqueue, hsame⟩ | ⟨hnot, sink,
      hwrite, hqueue, hsame, hafter⟩
    · simp only [hwrite] at hframe ⊢
      cases hm : m.flags.more with
      | true =>
        rw [hm] at hqueue
        simp only [hm, if_true] at hframe ⊢
        refine ⟨by rw [hm]; rfl, rfl, hframe, halive hsame, hothers sink,
          fun h => (by cases hout.symm.trans h), ?_⟩
        intro p' hp'
        cases hout.symm.trans hp'
        exact .more hwritable hm hout (by rw [← hqueue]; exact congrArg Sink.queue (hown sink))
      | false =>
        rw [hm] at hqueue
        simp only [hm, Bool.false_eq_true, if_false] at hframe ⊢
        refine ⟨by rw [hm]; rfl, rfl, hframe, halive hsame, hothers sink.flush, fun _ => rfl, ?_⟩
        intro p' hp'
        cases hout.symm.trans hp'
        refine .last hwritable hm rfl ?_
        rw [← hqueue]
        exact congrArg Sink.queue (hown sink.flush)
    · simp only [hwrite] at hframe ⊢
      refine ⟨rfl, rfl, hframe, halive hsame, hothers sink.rollback, fun _ => rfl, ?_⟩
      intro p' hp'
      cases hout.symm.trans hp'
      refine .refused hnot ?_ rfl ?_
      · intro hwritable
        exact hafter ((congrArg Sink.Writable (hown sink.rollback)).mp hwritable)
      · rw [← hqueue]
        exact congrArg Sink.queue (hown sink.rollback)

end Sending

end Uzmq.Reps
