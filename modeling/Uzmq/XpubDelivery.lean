import Uzmq.Runs
import Uzmq.XpubSends

/-!
# Where a publishing socket delivers

An XPUB or PUB socket together with the state of its pipes: whether a pipe is activated for
writing and whether it is not being closed. Whether there is room in a pipe is given with each
call, so that all marks and all speeds of the peers are covered. The subscriptions of the pipes
are recorded, and for the message in progress the pipes that had to get all its parts so far.

If the first part of a message is refused, the pipes selected for it stay marked as matching. The
next first part goes to them, too, or is kept from them if matching is inverted.
-/

namespace Uzmq.XpubDelivery

open Xpubs Option Function
open Message
open Distributors (Content View Shows SendsTo Ordered)
open Mtries (Refines hold subscribers)
open Xpubs (Xpub Fits subscribe subscribed)
open Runs (Reach)

variable {Pipe : Type} [DecidableEq Pipe]

structure Publisher (Pipe : Type) where
  socket : Xpub Pipe := {}
  held : Finset (List UInt8 × Pipe) := ∅
  outActive : Pipe → Bool := fun _ => true
  /-- `state` is `active`. -/
  alive : Pipe → Bool := fun _ => true
  message : Option (List Pipe) := none

inductive Input (Pipe : Type) where
  | attach (pipe : Pipe) (subscribeToAll : Bool)
  | read (pipe : Pipe) (sub : Msg)
  /-- The pipe starts to terminate. -/
  | close (pipe : Pipe)
  | terminated (pipe : Pipe)
  /-- `process_activate_write` -/
  | activateWrite (pipe : Pipe)
  | send (m : Msg) (c : Content) (room : Pipe → Bool)
  | recv
  | setsockopt (option : Xpub.SockOpt)

namespace Publisher

variable (s : Publisher Pipe)

/-- The result of `check_write`. -/
def writable (room : Pipe → Bool) (pipe : Pipe) : Bool :=
  s.outActive pipe && s.alive pipe && room pipe

def xsend (m : Msg) (c : Content) (room : Pipe → Bool) : Option (Xpub.Sent Pipe) :=
  s.socket.xsend m c room fun _ => s.writable room

/-- The pipes a part has to be written to. -/
def targets (data : List UInt8) (room : Pipe → Bool) : List Pipe :=
  match s.message with
  | none =>
    s.socket.dist.pipes.items.filter fun pipe =>
      s.writable room pipe && (subscribed s.held pipe data != s.socket.invertMatching)
  | some targets => targets.filter (s.writable room)

/-- A write that finds no room deactivates the pipe. -/
def afterSend (m : Msg) (room : Pipe → Bool) (r : Xpub.Sent Pipe) : Publisher Pipe :=
  match r.log with
  | none => { s with socket := r.socket }
  | some log =>
    { s with
      socket := r.socket
      outActive := fun pipe =>
        s.outActive pipe && !(log.contains (pipe, false) && s.alive pipe)
      message := if m.flags.more then some (s.targets m.data room) else none }

/-- What an option does to the subscriptions. -/
def holdOption (option : Xpub.SockOpt) : Finset (List UInt8 × Pipe) :=
  match option, s.socket.manual, s.socket.lastPipe with
  | .subscribe topic, true, some pipe => hold s.held (.add topic pipe)
  | .unsubscribe topic, true, some pipe => hold s.held (.rm topic pipe)
  | _, _, _ => s.held

/-- The pipe is still marked as matching. -/
def marked (pipe : Pipe) : Bool :=
  decide (s.socket.dist.pipes.index pipe < s.socket.dist.matching)

def selects (data : List UInt8) (pipe : Pipe) : Bool :=
  decide (s.socket.dist.pipes.index pipe < s.socket.dist.eligible) &&
    ((s.marked pipe || subscribed s.held pipe data) != s.socket.invertMatching)

/-- A pipe that is selected for a first part has no room, and messages must not be dropped. -/
def Blocked (data : List UInt8) (room : Pipe → Bool) : Prop :=
  s.socket.lossy = false ∧
    ∃ pipe ∈ s.socket.dist.pipes.items, s.selects data pipe = true ∧ room pipe = false

/-- The pipes that are still marked match anyway, or the part cannot be written to them. -/
def Unmarked (data : List UInt8) (room : Pipe → Bool) : Prop :=
  ∀ pipe ∈ s.socket.dist.pipes.items, s.marked pipe = true → s.writable room pipe = true →
    subscribed s.held pipe data = true

end Publisher

open Publisher

def step (s : Publisher Pipe) : Input Pipe → Option (Publisher Pipe)
  | .attach pipe subscribeToAll =>
    (s.socket.xattachPipe pipe subscribeToAll true []).map fun socket =>
      { s with
        socket := socket
        held := if subscribeToAll then hold s.held (.add [] pipe) else s.held
        outActive := update s.outActive pipe true
        alive := update s.alive pipe true }
  | .read pipe sub =>
    (s.socket.readFrame pipe sub).map fun socket =>
      { s with
        socket := socket
        held := if s.socket.manual then s.held else subscribe s.held pipe sub.data }
  | .close pipe => some { s with alive := update s.alive pipe false }
  | .terminated pipe =>
    (s.socket.xpipeTerminated pipe).map fun socket =>
      { s with
        socket := socket
        held := hold s.held (.rmPipe pipe true)
        message := s.message.map fun targets => targets.filter fun q => q ≠ pipe }
  | .activateWrite pipe =>
    if s.outActive pipe = false ∧ s.alive pipe = true then
      (s.socket.xwriteActivated pipe).map fun socket =>
        { s with socket := socket, outActive := update s.outActive pipe true }
    else some s
  | .send m c room => (s.xsend m c room).map (s.afterSend m room)
  | .recv =>
    match s.socket.xrecv with
    | none => some s
    | some (socket, _) => some { s with socket := socket }
  | .setsockopt option =>
    (s.socket.xsetsockopt option).map fun socket =>
      { s with socket := socket, held := s.holdOption option }

/-- The options that are about the last pipe if subscriptions are made by hand. -/
def aboutPipe : Xpub.SockOpt → Bool
  | .subscribe _ | .unsubscribe _ => true
  | _ => false

/-- The pipe that an option is about is still there. The first part of a message is refused, or
no pipe is marked that should not get it. -/
def Guard (s : Publisher Pipe) : Input Pipe → Prop
  | .attach pipe _ => pipe ∉ s.socket.dist.pipes.items
  | .read pipe _ => pipe ∈ s.socket.dist.pipes.items
  | .close _ => True
  | .terminated pipe => pipe ∈ s.socket.dist.pipes.items
  | .activateWrite pipe => pipe ∈ s.socket.dist.pipes.items
  | .send m _ room => s.message = none → s.Blocked m.data room ∨ s.Unmarked m.data room
  | .recv => True
  | .setsockopt option => s.socket.manual = true → aboutPipe option = true →
      ∀ pipe ∈ s.socket.lastPipe, pipe ∈ s.socket.dist.pipes.items

instance (s : Publisher Pipe) (i : Input Pipe) : Decidable (Guard s i) := by
  cases i <;> unfold Guard <;> try unfold Blocked Unmarked
  all_goals infer_instance

/-- A socket without pipes and subscriptions. -/
structure Initial (s : Publisher Pipe) : Prop where
  subscriptions : s.socket.subscriptions = .new subscribers
  dist : s.socket.dist = {}
  more : s.socket.more = false
  held : s.held = ∅
  message : s.message = none

/-- Pipes that are not eligible cannot be written to, and in a message the matching pipes are
those that have got all its parts. -/
structure Inv (s : Publisher Pipe) (v : View Pipe) : Prop where
  refines : Refines s.socket.subscriptions s.held
  shows : Shows s.socket.dist v
  more : s.socket.more = s.socket.dist.more
  eligible : ∀ q, v.eligible q → s.outActive q = true
  passive : ∀ q, v.attached q → ¬ v.eligible q → s.outActive q = false ∨ s.alive q = false
  between : s.message = none → s.socket.more = false
  within : ∀ targets, s.message = some targets →
    s.socket.more = true ∧ ∀ q, v.matching q ↔ q ∈ targets

section Inv
variable {room : Pipe → Bool} {m : Msg} {x x' : Xpub Pipe} {held : Finset (List UInt8 × Pipe)}
  {pipe : Pipe} {s : Publisher Pipe} {v : View Pipe}

section
variable (h : Inv s v)
include h

theorem Inv.fits : Fits s.socket v := { h with sound := h.refines.sound }

omit h in
theorem inv_initial (h : Initial s) : Inv s {} := by
  constructor
  · rw [h.subscriptions, h.held]
    exact Mtries.new_refines
  · rw [h.dist]
    exact Distributors.shows_new
  · rw [h.more, h.dist]
  · intro q hq
    exact hq.elim
  · intro q hq
    exact hq.elim
  · intro _
    exact h.more
  · intro targets ht
    rw [h.message] at ht
    cases ht

theorem Inv.eligible_of_writable {q : Pipe} (hin : v.attached q) (hq : s.writable room q = true) :
    v.eligible q := by
  by_contra hnot
  simp only [writable, Bool.and_eq_true] at hq
  rcases h.passive q hin hnot with hout | hdead
  · rw [hout] at hq
    exact Bool.false_ne_true hq.1.1
  · rw [hdead] at hq
    exact Bool.false_ne_true hq.1.2

theorem Inv.chosen_first (hmessage : s.message = none) (data : List UInt8) (q : Pipe) :
    (s.socket.chosen v data).matching q ↔ s.selects data q = true := by
  have hmore : ¬ s.socket.more = true := by
    rw [h.between hmessage]
    exact Bool.false_ne_true
  have hcalled := mem_called h.refines q data
  have hmarked : s.marked q = true ↔ v.matching q := by
    rw [marked, decide_eq_true_eq]
    exact h.shows.matching q
  have hsub (hq : v.matching q) : v.eligible q := by
    have hle := h.shows.matching_le
    have hle' := h.shows.active_le
    rw [← h.shows.matching] at hq
    rw [← h.shows.eligible]
    omega
  rw [selects, Bool.and_eq_true, decide_eq_true_eq, h.shows.eligible, Xpub.chosen, if_neg hmore]
  cases s.socket.invertMatching with
  | false =>
    rw [if_neg Bool.false_ne_true]
    simp only [hcalled, Bool.bne_false, Bool.or_eq_true, hmarked]
    tauto
  | true =>
    rw [if_pos rfl]
    simp only [hcalled, Bool.bne_true, Bool.not_eq_true', Bool.or_eq_false_iff]
    rw [← Bool.not_eq_true, ← Bool.not_eq_true, hmarked]
    tauto

/-- A first part is written to the right pipes if and only if no pipe is marked wrongly. -/
theorem Inv.exact_first (hmessage : s.message = none) (data : List UInt8) (room : Pipe → Bool) :
    (∀ q, s.selects data q = true ∧ s.writable room q = true ↔ q ∈ s.targets data room) ↔
      s.Unmarked data room := by
  have hindex (q : Pipe) (hin : q ∈ s.socket.dist.pipes.items)
      (hq : s.writable room q = true) :
      s.socket.dist.pipes.index q < s.socket.dist.eligible :=
    (h.shows.eligible q).mpr (h.eligible_of_writable ((h.shows.attached q).mp hin) hq)
  have hattached (q : Pipe) (hq : s.socket.dist.pipes.index q < s.socket.dist.eligible) :
      q ∈ s.socket.dist.pipes.items := by
    have hle := h.shows.eligible_le
    exact Slots.index_lt_size_iff.mp (by omega)
  simp only [targets, hmessage, List.mem_filter, Bool.and_eq_true, selects, decide_eq_true_eq,
    Unmarked]
  constructor
  · intro hexact q hin hmarked hq
    have hiff := hexact q
    simp only [hindex q hin hq, hin, hq, hmarked, Bool.true_or, true_and, and_true] at hiff
    cases hsub : subscribed s.held q data with
    | true => rfl
    | false =>
      rw [hsub] at hiff
      cases hinv : s.socket.invertMatching <;> simp [hinv] at hiff
  · intro hunmarked q
    constructor
    · rintro ⟨⟨helig, hsel⟩, hq⟩
      have hin := hattached q helig
      refine ⟨hin, hq, ?_⟩
      cases hm : s.marked q with
      | false => simpa [hm] using hsel
      | true =>
        rw [hunmarked q hin hm hq]
        simpa [hm] using hsel
    · rintro ⟨hin, hq, hsel⟩
      refine ⟨⟨hindex q hin hq, ?_⟩, hq⟩
      cases hm : s.marked q with
      | false => simpa using hsel
      | true =>
        rw [hunmarked q hin hm hq] at hsel
        simpa using hsel

/-- A part is written to the right pipes if and only if it is not a first part for which a pipe
is marked wrongly. -/
theorem Inv.exact_iff (data : List UInt8) (room : Pipe → Bool) :
    (∀ q, (s.socket.chosen v data).matching q ∧ s.writable room q = true ↔
        q ∈ s.targets data room) ↔ (s.message = none → s.Unmarked data room) := by
  cases hmessage : s.message with
  | none =>
    simp only [h.chosen_first hmessage, h.exact_first hmessage]
    simp
  | some targets =>
    obtain ⟨hmore, hmatching⟩ := h.within targets hmessage
    have hchosen : s.socket.chosen v data = v := if_pos hmore
    simp [hchosen, hmatching, Publisher.targets, hmessage]

/-- A first part is refused if and only if a selected pipe has no room. -/
theorem Inv.blocked_iff (hmessage : s.message = none) (data : List UInt8) (room : Pipe → Bool) :
    s.Blocked data room ↔
      ¬ (s.socket.lossy = true ∨ ∀ q, (s.socket.chosen v data).matching q → room q = true) := by
  simp only [Blocked, h.chosen_first hmessage, not_or, not_forall, Bool.not_eq_true]
  constructor
  · rintro ⟨hlossy, q, -, hsel, hroom⟩
    exact ⟨hlossy, q, hsel, hroom⟩
  rintro ⟨hlossy, q, hsel, hroom⟩
  refine ⟨hlossy, q, ?_, hsel, hroom⟩
  simp only [selects, Bool.and_eq_true, decide_eq_true_eq] at hsel
  have hle := h.shows.eligible_le
  exact Slots.index_lt_size_iff.mp (by omega)

end

theorem mem_log {r : Distributors.Distributor.Sent Pipe} {ok : Pipe → Bool} {more : Bool}
    (h : SendsTo (fun _ => ok) v more r) (q : Pipe) (b : Bool) :
    (q, b) ∈ r.log ↔ v.matching q ∧ ok q = b := by
  have hresult (x : Pipe × Bool) (hx : x ∈ r.log) : x.2 = ok x.1 := by
    obtain ⟨k, hk⟩ := List.getElem?_of_mem hx
    exact h.result k x hk
  constructor
  · intro hx
    exact ⟨(h.mem q).mp (List.mem_map_of_mem hx), (hresult _ hx).symm⟩
  · rintro ⟨hq, rfl⟩
    obtain ⟨x, hx, rfl⟩ := List.mem_map.mp ((h.mem q).mpr hq)
    have heq : x = (x.1, ok x.1) := Prod.ext rfl (hresult x hx)
    rwa [← heq]

section
variable (h : Inv s v)
include h

theorem Inv.sent {r : Distributors.Distributor.Sent Pipe}
    (hsends : SendsTo (fun _ => s.writable room) (s.socket.chosen v m.data) m.flags.more r)
    (hguard : s.message = none → s.Unmarked m.data room) :
    Inv (s.afterSend m room {
        socket := { s.socket with
          dist := if m.flags.more then r.dist else r.dist.unmatch, more := m.flags.more }
        log := some r.log })
      (Xpubs.nextPart (s.socket.chosen v m.data) (fun q => (q, false) ∈ r.log) m.flags.more) := by
  have hlog := mem_log hsends
  have hshows := shows_nextPart hsends
  constructor
  · exact h.refines
  · exact hshows
  · exact (hshows.more.trans (nextPart_more _ _ _)).symm
  · intro q hq
    rw [nextPart_eligible, chosen_eligible] at hq
    simp [afterSend, h.eligible q hq.1, hq.2]
  · intro q hin hq
    rw [nextPart_attached, chosen_attached] at hin
    by_cases helig : v.eligible q
    · have hfailed : (q, false) ∈ r.log := by simpa [helig] using hq
      cases halive : s.alive q with
      | false => exact .inr halive
      | true => simp [afterSend, hfailed, halive]
    · rcases h.passive q hin helig with hout | hdead
      · simp [afterSend, hout]
      · exact .inr hdead
  · intro hmessage
    cases hmore : m.flags.more with
    | false => simp [afterSend, hmore]
    | true => simp [afterSend, hmore] at hmessage
  · intro targets hmessage
    cases hmore : m.flags.more with
    | false => simp [afterSend, hmore] at hmessage
    | true =>
      have htargets : s.targets m.data room = targets := by
        simpa [afterSend, hmore] using hmessage
      refine ⟨by simp [afterSend, hmore], ?_⟩
      intro q
      rw [nextPart_matching, ← htargets, ← (h.exact_iff m.data room).mpr hguard q]
      simp only [hlog]
      cases s.writable room q <;> simp

theorem Inv.refused (room : Pipe → Bool) {d : Distributors.Distributor Pipe}
    (hshows : Shows d (s.socket.chosen v m.data)) :
    Inv (s.afterSend m room { socket := { s.socket with dist := d }, log := none })
      (s.socket.chosen v m.data) := by
  constructor
  · exact h.refines
  · exact hshows
  · change s.socket.more = d.more
    rw [h.more, hshows.more, chosen_more, h.shows.more]
  · intro q hq
    rw [chosen_eligible] at hq
    exact h.eligible q hq
  · intro q hin hq
    rw [chosen_attached] at hin
    rw [chosen_eligible] at hq
    exact h.passive q hin hq
  · exact h.between
  · intro targets hmessage
    obtain ⟨hmore, hmatching⟩ := h.within targets hmessage
    have hchosen : s.socket.chosen v m.data = v := if_pos hmore
    rw [hchosen]
    exact ⟨hmore, hmatching⟩

theorem Inv.send {c : Content} (hguard : Guard s (.send m c room)) :
    ∃ t v', step s (.send m c room) = some t ∧ Inv t v' := by
  by_cases hroom : s.socket.lossy = true ∨
      ∀ q, (s.socket.chosen v m.data).matching q → room q = true
  · obtain ⟨r, hr, hsends⟩ := h.fits.xsend_sent m c room (fun _ => s.writable room) hroom
    refine ⟨_, _, ?_, h.sent hsends ?_⟩
    · rw [step, xsend, hr, map_some]
    · intro hmessage
      exact (hguard hmessage).resolve_left fun hblocked =>
        (h.blocked_iff hmessage m.data room).mp hblocked hroom
  · obtain ⟨d, hd, hshows⟩ := h.fits.xsend_refused m c room (fun _ => s.writable room) hroom
    refine ⟨_, _, ?_, h.refused room hshows⟩
    rw [step, xsend, hd, map_some]

theorem Inv.resubscribe (hrefines : Refines x.subscriptions held) (hdist : x.dist = s.socket.dist)
    (hmore : x.more = s.socket.more) : Inv { s with socket := x, held := held } v := by
  constructor
  · exact hrefines
  · rw [hdist]
    exact h.shows
  · rw [hmore, hdist]
    exact h.more
  · exact h.eligible
  · exact h.passive
  · intro hmessage
    exact hmore.trans (h.between hmessage)
  · intro targets hmessage
    exact ⟨hmore.trans (h.within targets hmessage).1, (h.within targets hmessage).2⟩

theorem Inv.attach {subscribeToAll : Bool} (hnew : pipe ∉ s.socket.dist.pipes.items) :
    ∃ t v', step s (.attach pipe subscribeToAll) = some t ∧ Inv t v' := by
  have hnot : ¬ v.attached pipe := fun hin => hnew ((h.shows.attached pipe).mpr hin)
  obtain ⟨d, hd, hshows⟩ := h.shows.attach hnot
  obtain ⟨trie, htrie, hrefines⟩ : ∃ trie,
      (if subscribeToAll then (Mtries.add s.socket.subscriptions [] pipe).map Prod.fst
        else some s.socket.subscriptions) = some trie ∧
      Refines trie (if subscribeToAll then hold s.held (.add [] pipe) else s.held) := by
    cases subscribeToAll with
    | false => exact ⟨_, rfl, h.refines⟩
    | true =>
      obtain ⟨trie, first, htrie, -, hrefines⟩ := h.refines.add [] pipe
      exact ⟨trie, by simp [htrie], hrefines⟩
  have hstep := xattachPipe_eq s.socket pipe subscribeToAll
  rw [hd] at hstep
  simp only [htrie, map_some] at hstep
  refine ⟨_, v.attach pipe, by rw [step, hstep, map_some], ?_⟩
  constructor
  · exact hrefines
  · exact hshows
  · exact h.more.trans (h.shows.more.trans hshows.more.symm)
  · intro q hq
    by_cases heq : q = pipe
    · simp [heq]
    · simpa [heq] using h.eligible q (hq.resolve_right heq)
  · intro q hin hq
    have heq : q ≠ pipe := fun heq => hq (.inr heq)
    simpa [heq] using h.passive q (hin.resolve_right heq) fun helig => hq (.inl helig)
  · exact h.between
  · exact h.within

theorem Inv.close (pipe : Pipe) : ∃ t v', step s (.close pipe) = some t ∧ Inv t v' := by
  refine ⟨_, v, rfl, h.refines, h.shows, h.more, h.eligible, ?_, h.between, h.within⟩
  intro q hin hq
  by_cases heq : q = pipe
  · simp [heq]
  · simpa [heq] using h.passive q hin hq

theorem Inv.activateWrite (hin : pipe ∈ s.socket.dist.pipes.items) :
    ∃ t v', step s (.activateWrite pipe) = some t ∧ Inv t v' := by
  by_cases hout : s.outActive pipe = false ∧ s.alive pipe = true
  · have hpassive : ¬ v.eligible pipe := by
      intro helig
      rw [h.eligible pipe helig] at hout
      cases hout.1
    obtain ⟨d, hd, hshows⟩ := h.shows.activated ((h.shows.attached pipe).mp hin) hpassive
    have hsocket : s.socket.xwriteActivated pipe = some { s.socket with dist := d } := by
      rw [Xpub.xwriteActivated, hd, map_some]
    refine ⟨_, v.activated pipe, by rw [step, if_pos hout, hsocket, map_some], ?_⟩
    refine { h with shows := ?_, more := ?_, eligible := ?_, passive := ?_ }
    · exact hshows
    · exact h.more.trans (h.shows.more.trans hshows.more.symm)
    · intro q hq
      by_cases heq : q = pipe
      · simp [heq]
      · simpa [heq] using h.eligible q (hq.resolve_right heq)
    · intro q hatt hq
      have heq : q ≠ pipe := fun heq => hq (.inr heq)
      simpa [heq] using h.passive q hatt fun helig => hq (.inl helig)
  · exact ⟨s, v, by rw [step, if_neg hout], h⟩

end

omit [DecidableEq Pipe] in
/-- What the functions that queue unsubscriptions leave alone. -/
theorem foldl_sendUnsubscription_frame (x : Xpub Pipe) (topics : List (List UInt8)) :
    (topics.foldl Xpub.sendUnsubscription x).subscriptions = x.subscriptions ∧
      (topics.foldl Xpub.sendUnsubscription x).dist = x.dist ∧
      (topics.foldl Xpub.sendUnsubscription x).more = x.more := by
  induction topics generalizing x with
  | nil => exact ⟨rfl, rfl, rfl⟩
  | cons topic topics ih =>
    obtain ⟨hsubscriptions, hdist, hmore⟩ := ih (x.sendUnsubscription topic)
    have hone : (x.sendUnsubscription topic).subscriptions = x.subscriptions ∧
        (x.sendUnsubscription topic).dist = x.dist ∧
        (x.sendUnsubscription topic).more = x.more := by
      unfold Xpub.sendUnsubscription
      split
      · exact ⟨rfl, rfl, rfl⟩
      · split <;> exact ⟨rfl, rfl, rfl⟩
    exact ⟨hsubscriptions.trans hone.1, hdist.trans hone.2.1, hmore.trans hone.2.2⟩

section
variable (hrefines : Refines x.subscriptions held)
include hrefines

theorem xpipeTerminated_spec (h : x.xpipeTerminated pipe = some x') :
    x.dist.pipeTerminated pipe = some x'.dist ∧ x'.more = x.more ∧
      Refines x'.subscriptions (hold held (.rmPipe pipe true)) := by
  unfold Xpub.xpipeTerminated at h
  split at h
  · cases h
  rename_i x₁ hx₁
  obtain ⟨d, hd, rfl⟩ := map_eq_some_iff.mp h
  suffices hkept : x₁.dist = x.dist ∧ x₁.more = x.more ∧
      Refines x₁.subscriptions (hold held (.rmPipe pipe true)) by
    rw [← hkept.1]
    exact ⟨hd, hkept.2⟩
  split at hx₁
  · split at hx₁
    · cases hx₁
    rename_i manualTrie topics _
    obtain ⟨r, hr, rfl⟩ := map_eq_some_iff.mp hx₁
    obtain ⟨-, hdist, hmore⟩ := foldl_sendUnsubscription_frame
      { x with manualSubscriptions := manualTrie } topics
    obtain ⟨trie, calls, htrie, -, -, hrefines'⟩ := hrefines.rmPipe pipe false
    rw [htrie] at hr
    cases hr
    exact ⟨hdist, hmore, hrefines'⟩
  · obtain ⟨r, hr, rfl⟩ := map_eq_some_iff.mp hx₁
    obtain ⟨hsubscriptions, hdist, hmore⟩ := foldl_sendUnsubscription_frame
      { x with subscriptions := r.1 } r.2
    obtain ⟨trie, calls, htrie, -, -, hrefines'⟩ := hrefines.rmPipe pipe (!x.verboseUnsubs)
    rw [htrie] at hr
    cases hr
    rw [hsubscriptions]
    exact ⟨hdist, hmore, hrefines'⟩

omit hrefines in
theorem Inv.terminated {t : Publisher Pipe} (h : Inv s v) (hin : pipe ∈ s.socket.dist.pipes.items)
    (hstep : step s (.terminated pipe) = some t) : ∃ v', Inv t v' := by
  obtain ⟨x, hx, rfl⟩ := map_eq_some_iff.mp hstep
  obtain ⟨hdist, hmore, hrefines⟩ := xpipeTerminated_spec h.refines hx
  obtain ⟨d, hd, hshows⟩ := h.shows.pipeTerminated ((h.shows.attached pipe).mp hin)
  rw [hd] at hdist
  cases hdist
  refine ⟨v.pipeTerminated pipe, hrefines, hshows, ?_, ?_, ?_, ?_, ?_⟩
  · exact (hmore.trans h.more).trans (h.shows.more.trans hshows.more.symm)
  · intro q hq
    exact h.eligible q hq.1
  · intro q hatt hq
    exact h.passive q hatt.1 fun helig => hq ⟨helig, hatt.2⟩
  · intro hmessage
    exact hmore.trans (h.between (by simpa using hmessage))
  · intro targets hmessage
    obtain ⟨before, hbefore, rfl⟩ := map_eq_some_iff.mp hmessage
    obtain ⟨hbm, hmatching⟩ := h.within before hbefore
    refine ⟨hmore.trans hbm, ?_⟩
    intro q
    simp [View.pipeTerminated, hmatching]

theorem readSubscription_spec {add : Bool} {topic data : List UInt8}
    (h : x.readSubscription pipe add topic data = some x') :
    x'.dist = x.dist ∧ x'.more = x.more ∧ Refines x'.subscriptions (if x.manual then held
        else if add then hold held (.add topic pipe) else hold held (.rm topic pipe)) := by
  cases hmanual : x.manual with
  | true =>
    unfold Xpub.readSubscription at h
    rw [if_pos hmanual] at h
    split at h
    · cases h
    · cases h
      exact ⟨rfl, rfl, hrefines⟩
  | false =>
    rw [readSubscription_eq hmanual] at h
    obtain ⟨r, hr, rfl⟩ := map_eq_some_iff.mp h
    have hrefines' : Refines r.1
        (if add then hold held (.add topic pipe) else hold held (.rm topic pipe)) := by
      cases add with
      | false => exact hrefines.of_rm hr
      | true =>
        obtain ⟨trie, first, htrie, -, hadded⟩ := hrefines.add topic pipe
        rw [if_pos rfl, htrie] at hr
        cases hr
        exact hadded
    split <;> exact ⟨rfl, rfl, hrefines'⟩

theorem readFrame_spec {sub : Msg} (h : x.readFrame pipe sub = some x') :
    x'.dist = x.dist ∧ x'.more = x.more ∧
      Refines x'.subscriptions (if x.manual then held else subscribe held pipe sub.data) := by
  unfold Xpub.readFrame at h
  split at h
  · rename_i hdata
    cases h
    simpa [hdata, subscribe, Xpub.pend] using hrefines
  rename_i first topic hdata
  rw [hdata, subscribe]
  split at h
  · rename_i hzero
    rw [if_pos hzero]
    exact readSubscription_spec hrefines h
  rename_i hzero
  rw [if_neg hzero]
  split at h
  · rename_i hone
    rw [if_pos hone]
    exact readSubscription_spec hrefines h
  · rename_i hone
    rw [if_neg hone]
    cases h
    simpa [Xpub.pend] using hrefines

end

theorem xsetsockopt_spec (hrefines : Refines s.socket.subscriptions s.held) {option : Xpub.SockOpt}
    (hx : s.socket.xsetsockopt option = some x) :
    x.dist = s.socket.dist ∧ x.more = s.socket.more ∧
      Refines x.subscriptions (s.holdOption option) := by
  cases hmanual : s.socket.manual with
  | false =>
    cases option <;> simp only [Xpub.xsetsockopt, hmanual, some.injEq] at hx <;> subst hx <;>
      simpa [holdOption, hmanual] using hrefines
  | true =>
    cases hlast : s.socket.lastPipe with
    | none =>
      cases option <;> simp only [Xpub.xsetsockopt, hmanual, hlast, some.injEq] at hx <;>
        subst hx <;> simpa [holdOption, hmanual, hlast] using hrefines
    | some pipe =>
      cases option with
      | subscribe topic =>
        simp only [Xpub.xsetsockopt, hmanual, hlast] at hx
        obtain ⟨r, hr, rfl⟩ := map_eq_some_iff.mp hx
        obtain ⟨trie, first, htrie, -, hadded⟩ := hrefines.add topic pipe
        rw [htrie] at hr
        cases hr
        simpa [holdOption, hmanual, hlast, hold] using hadded
      | unsubscribe topic =>
        simp only [Xpub.xsetsockopt, hmanual, hlast] at hx
        obtain ⟨r, hr, rfl⟩ := map_eq_some_iff.mp hx
        simpa [holdOption, hmanual, hlast, hold] using hrefines.of_rm hr
      | _ =>
        cases hx
        exact ⟨rfl, rfl, hrefines⟩

omit [DecidableEq Pipe] in
theorem xrecv_frame {frame : List UInt8 × Flags} (h : x.xrecv = some (x', frame)) :
    x'.subscriptions = x.subscriptions ∧ x'.dist = x.dist ∧ x'.more = x.more := by
  unfold Xpub.xrecv at h
  split at h
  · split at h <;> cases h <;> exact ⟨rfl, rfl, rfl⟩
  · cases h

theorem Inv.step {t : Publisher Pipe} (h : Inv s v) {i : Input Pipe} (hi : Guard s i)
    (hstep : step s i = some t) : ∃ v', Inv t v' := by
  have hnext (hex : ∃ t' v', XpubDelivery.step s i = some t' ∧ Inv t' v') : ∃ v', Inv t v' := by
    obtain ⟨t', v', ht', hinv⟩ := hex
    rw [ht'] at hstep
    cases hstep
    exact ⟨v', hinv⟩
  cases i with
  | attach pipe subscribeToAll => exact hnext (h.attach hi)
  | close pipe => exact hnext (h.close pipe)
  | activateWrite pipe => exact hnext (h.activateWrite hi)
  | send m c room => exact hnext (h.send hi)
  | terminated pipe => exact h.terminated hi hstep
  | read pipe sub =>
    obtain ⟨x, hx, rfl⟩ := map_eq_some_iff.mp hstep
    obtain ⟨hdist, hmore, hrefines⟩ := readFrame_spec h.refines hx
    exact ⟨v, h.resubscribe hrefines hdist hmore⟩
  | setsockopt option =>
    obtain ⟨x, hx, rfl⟩ := map_eq_some_iff.mp hstep
    obtain ⟨hdist, hmore, hrefines⟩ := xsetsockopt_spec h.refines hx
    exact ⟨v, h.resubscribe hrefines hdist hmore⟩
  | recv =>
    cases hrecv : s.socket.xrecv with
    | none =>
      simp only [XpubDelivery.step, hrecv] at hstep
      cases hstep
      exact ⟨v, h⟩
    | some r =>
      obtain ⟨hsubscriptions, hdist, hmore⟩ := xrecv_frame hrecv
      simp only [XpubDelivery.step, hrecv] at hstep
      cases hstep
      refine ⟨v, h.resubscribe ?_ hdist hmore⟩
      rw [hsubscriptions]
      exact h.refines

end Inv

/-- No assertion fails in `xsend`, and if it does not refuse the part it writes once to each pipe
it should write to and to no other, unless pipes are marked that should not be. -/
def Delivers (s : Publisher Pipe) : Prop :=
  ∀ m c room, ∃ r, s.xsend m c room = some r ∧ ∀ log, r.log = some log →
    (log.map Prod.fst).Nodup ∧
      ((∀ q, (q, true) ∈ log ↔ q ∈ s.targets m.data room) ↔
        (s.message = none → s.Unmarked m.data room))

theorem Inv.delivers {s : Publisher Pipe} {v : View Pipe} (h : Inv s v) : Delivers s := by
  intro m c room
  by_cases hroom : s.socket.lossy = true ∨
      ∀ q, (s.socket.chosen v m.data).matching q → room q = true
  · obtain ⟨r, hr, hsends⟩ := h.fits.xsend_sent m c room (fun _ => s.writable room) hroom
    refine ⟨_, hr, ?_⟩
    rintro log ⟨⟩
    refine ⟨hsends.nodup, ?_⟩
    simp only [mem_log hsends]
    exact h.exact_iff m.data room
  · obtain ⟨d, hd, -⟩ := h.fits.xsend_refused m c room (fun _ => s.writable room) hroom
    refine ⟨_, hd, ?_⟩
    rintro log ⟨⟩

/-- In every run in which no first part is sent while pipes are marked that should not get it, all
parts are delivered to the pipes they should be delivered to. -/
theorem publisher_delivers {s : Publisher Pipe} (h : Reach Initial Guard step s) : Delivers s := by
  have hinv : ∃ v, Inv s v := by
    induction h with
    | start hinitial => exact ⟨{}, inv_initial hinitial⟩
    | next _ met hstep ih =>
      obtain ⟨v, hinv⟩ := ih
      exact hinv.step met hstep
  obtain ⟨v, hinv⟩ := hinv
  exact hinv.delivers

/-- Of two pipes that match, one is being closed and does not get the two parts of a message. The
next message is refused and can be sent again. -/
def retryRun : List (Input Nat) :=
  [.attach 0 false, .attach 1 true, .attach 2 false, .setsockopt (.nodrop true),
    .read 0 { data := [1, 7] }, .read 2 { data := [1, 8] }, .close 1,
    .send { data := [7], flags := { more := true } } {} (fun _ => true),
    .send { data := [9] } {} (fun _ => true), .send { data := [7] } {} (fun pipe => pipe != 0)]

theorem retryRun_delivers :
    ∃ s : Publisher Nat, Reach Initial Guard step s ∧
      s.targets [7] (fun _ => true) = [0] ∧ s.Unmarked [7] (fun _ => true) ∧ Delivers s := by
  refine Reach.of_exec_two (s := {}) Guard step retryRun ?_ (by constructor <;> rfl)
    fun s hs => publisher_delivers hs
  unfold Unmarked
  decide +kernel

/-- A message for pipe 0 is refused and given up. The next one is for pipe 1, and it is written
to pipe 0 as well. -/
theorem refused_message_leaves_marks :
    ∃ s ∈ Runs.exec Runs.Always step ({} : Publisher Nat)
        [.attach 0 false, .attach 1 false, .setsockopt (.nodrop true), .read 0 { data := [1, 7] },
          .read 1 { data := [1, 8] }, .send { data := [7] } {} (fun pipe => pipe != 0)],
      s.targets [8] (fun _ => true) = [1] ∧
        (s.xsend { data := [8] } {} fun _ => true).bind (·.log) = some [(0, true), (1, true)] := by
  decide +kernel

end Uzmq.XpubDelivery
